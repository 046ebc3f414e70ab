import Mathlib.Analysis.SpecialFunctions.Sqrt
import Mathlib.LinearAlgebra.Matrix.Rank
import NonlinearSolve.Proofs.Equations.Frame
import NonlinearSolve.Proofs.Exact.Defaults
import NonlinearSolve.Proofs.LeastSquares.Frame

/-! # The iterate of every solver

There are five ways to solve a problem, and `solvers_track_iterate` says of all of them what
`Method.Tracks` says of one: as long as the residuals are those of a function `f`, the iterate is at
every moment the starting point or the point of the last accepted step, and it is reported with the
residuals that `f` has there. -/

namespace NonlinearSolve

variable {σ α : Type} [Scalar α] {m n : Nat}

/-- The first evaluation of a solve from `x` on succeeds. -/
def Problem.StartsAt (p : Problem σ α m n) (x : Vec α n) (s : σ) : Prop :=
  ∃ v s', p.evaluate x s = (.ok v, s')

/-- Every solver tracks the iterate, whatever the arithmetic, the settings and the Jacobian are, and
whichever calls abort after the first evaluation. -/
theorem solvers_track_iterate (nm : Numerics α) :
    (∀ (c : LeastSquares.Config α) (f : Vec α n → Vec α m) (x : Vec α n) (s : σ) (h : n ≤ m),
      c.fault? n = none →
      (∀ p : JacobianProblem σ α m n, p.Computes f → p.StartsAt x s →
        (LeastSquares.method nm c (c.budget 100 n) h p.toProblem
          (LeastSquares.analytic nm h p)).Tracks (LeastSquares.accepts nm h) nm c.toSettings
            p.toProblem f x s (LeastSquares.minimize nm c p x s).1.toSummary) ∧
      (∀ p : Problem σ α m n, p.Computes f → p.StartsAt x s →
        (LeastSquares.method nm c (c.budget 200 n) h p
          (LeastSquares.numerical nm h c.toSettings p)).Tracks (LeastSquares.accepts nm h) nm
            c.toSettings p f x s (LeastSquares.minimizeNumerically nm c p x s).1.toSummary) ∧
      (∀ p : RowProblem σ α m n, p.Computes f → p.StartsAt x s →
        (LeastSquares.method nm c (c.budget 100 n) (Nat.le_refl n) p.toProblem
          (LeastSquares.rowwise nm p)).Tracks (LeastSquares.accepts nm (Nat.le_refl n)) nm
            c.toSettings p.toProblem f x s
            (LeastSquares.minimizeRowwise nm c p x s).1.toSummary)) ∧
    (∀ (c : Equations.Config α) (f : Vec α n → Vec α n) (x : Vec α n) (s : σ),
      c.fault? n = none →
      (∀ p : Problem σ α n n, p.Computes f → p.StartsAt x s →
        (Equations.method nm c (c.budget 200 n) p (Equations.numerical nm c p)).Tracks
          (Equations.accepts nm) nm c.toSettings p f x s
          (Equations.solve nm c p x s).1.toSummary) ∧
      (∀ p : JacobianProblem σ α n n, p.Computes f → p.StartsAt x s →
        (Equations.method nm c (c.budget 100 n) p.toProblem (Equations.analytic p)).Tracks
          (Equations.accepts nm) nm c.toSettings p.toProblem f x s
          (Equations.solveWithJacobian nm c p x s).1.toSummary)) := by
  refine ⟨fun c f x s h hc => ⟨?_, ?_, ?_⟩, fun c f x s hc => ⟨?_, ?_⟩⟩
  · rintro p hp ⟨v, s', hfirst⟩
    have hl := LeastSquares.recounts_analytic nm h p
    exact LeastSquares.tracks_run id (fun h => LeastSquares.analytic nm h p) h hl (by decide) hc hp
      hfirst
  · rintro p hp ⟨v, s', hfirst⟩
    have hl := LeastSquares.recounts_numerical nm h c.toSettings p
    exact LeastSquares.tracks_run id (fun h => LeastSquares.numerical nm h c.toSettings p) h hl
      (by decide) hc hp hfirst
  · rintro p hp ⟨v, s', hfirst⟩
    have hl := LeastSquares.recounts_rowwise nm p
    exact LeastSquares.tracks_run (fun _ => Nat.le_refl n) (fun _ => LeastSquares.rowwise nm p) h hl
      (by decide) hc hp hfirst
  · rintro p hp ⟨v, s', hfirst⟩
    have hl := Equations.recounts_numerical nm c p
    rw [Equations.solve, dif_pos rfl]
    exact Equations.tracks_run hl (by decide) hc hp hfirst
  · rintro p hp ⟨v, s', hfirst⟩
    have hl := Equations.recounts_analytic p
    rw [Equations.solveWithJacobian, dif_pos rfl]
    exact Equations.tracks_run hl (by decide) hc hp hfirst

/-! ### Problems in two unknowns -/

/-- The equations `x = 0` in two unknowns, with `a` times their Jacobian. -/
def rootAtZeroTimes (a : ℝ) : JacobianProblem Unit ℝ 2 2 where
  evaluate x s := (.ok x, s)
  jacobian _ s := (.ok (Mat.of fun i j => if i = j then a else 0), s)

/-- The matrix that is given for the Jacobian is `a` times the identity. -/
theorem toMatrix_times (a : ℝ) :
    (Mat.of fun i j => if i = j then a else 0 : Mat ℝ 2 2).toMatrix = a • 1 := by
  ext i j
  rw [Mat.toMatrix_apply, Mat.of_apply, Matrix.smul_apply, Matrix.one_apply, smul_eq_mul, mul_ite,
    mul_one, mul_zero]

/-- A multiple of the identity has full rank, unless it is zero. -/
theorem rank_times {a : ℝ} (ha : a ≠ 0) :
    (Mat.of fun i j => if i = j then a else 0 : Mat ℝ 2 2).toMatrix.rank = 2 := by
  refine (Matrix.rank_of_isUnit _ ((Matrix.isUnit_iff_isUnit_det _).2 ?_)).trans
    (Fintype.card_fin 2)
  rw [toMatrix_times, Matrix.det_smul, Matrix.det_one, mul_one]
  exact (pow_ne_zero _ ha).isUnit

/-- Two residuals that are both the sum of two unknowns, with their Jacobian, which has not full
rank. -/
noncomputable def sumTwice : JacobianProblem Unit ℝ 2 2 where
  evaluate x s := (.ok (Vec.const 2 (x 0 + x 1)), s)
  jacobian _ s := (.ok (Mat.of fun _ _ => 1), s)

/-- Two residuals that are both the sum of two unknowns, with their Jacobian row by row. -/
noncomputable def sumTwiceByRows : RowProblem Unit ℝ 2 2 where
  evaluate x s := (.ok (Vec.const 2 (x 0 + x 1)), s)
  jacobianRow _ i s := (.ok ((Mat.of fun _ _ => 1 : Mat ℝ 2 2).row i), s)

/-- The residuals of `sumTwice` are a function of the unknowns. -/
theorem sumTwice_computes : sumTwice.Computes fun x => Vec.const 2 (x 0 + x 1) := by
  intro x s v s' h
  cases h
  rfl

/-- The solvers track the iterate when they minimize the sum of squares of `sumTwice`, or solve the
equations, starting where both unknowns are one. -/
theorem solvers_track_iterate_sumTwice :
    let nm := Numerics.exact 1 1 false
    let c := LeastSquares.Config.default nm
    let d := Equations.Config.default nm
    let x := Vec.const 2 (1 : ℝ)
    let f := fun y : Vec ℝ 2 => Vec.const 2 (y 0 + y 1)
    (LeastSquares.method nm c (c.budget 100 2) (Nat.le_refl 2) sumTwice.toProblem
        (LeastSquares.analytic nm (Nat.le_refl 2) sumTwice)).Tracks
      (LeastSquares.accepts nm (Nat.le_refl 2)) nm c.toSettings sumTwice.toProblem f x ()
      (LeastSquares.minimize nm c sumTwice x ()).1.toSummary ∧
    (LeastSquares.method nm c (c.budget 200 2) (Nat.le_refl 2) sumTwice.toProblem
        (LeastSquares.numerical nm (Nat.le_refl 2) c.toSettings sumTwice.toProblem)).Tracks
      (LeastSquares.accepts nm (Nat.le_refl 2)) nm c.toSettings sumTwice.toProblem f x ()
      (LeastSquares.minimizeNumerically nm c sumTwice.toProblem x ()).1.toSummary ∧
    (LeastSquares.method nm c (c.budget 100 2) (Nat.le_refl 2) sumTwiceByRows.toProblem
        (LeastSquares.rowwise nm sumTwiceByRows)).Tracks
      (LeastSquares.accepts nm (Nat.le_refl 2)) nm c.toSettings sumTwiceByRows.toProblem f x ()
      (LeastSquares.minimizeRowwise nm c sumTwiceByRows x ()).1.toSummary ∧
    (Equations.method nm d (d.budget 200 2) sumTwice.toProblem
        (Equations.numerical nm d sumTwice.toProblem)).Tracks
      (Equations.accepts nm) nm d.toSettings sumTwice.toProblem f x ()
      (Equations.solve nm d sumTwice.toProblem x ()).1.toSummary ∧
    (Equations.method nm d (d.budget 100 2) sumTwice.toProblem
        (Equations.analytic sumTwice)).Tracks
      (Equations.accepts nm) nm d.toSettings sumTwice.toProblem f x ()
      (Equations.solveWithJacobian nm d sumTwice x ()).1.toSummary := by
  intro nm c d x f
  have hc : c.fault? 2 = none := LeastSquares.Config.fault?_default two_ne_zero zero_le_one
  have hd : d.fault? 2 = none := Equations.Config.fault?_default two_ne_zero
  have hstart : sumTwice.StartsAt x () := ⟨f x, (), rfl⟩
  obtain ⟨hls, heq⟩ := solvers_track_iterate (σ := Unit) (m := 2) (n := 2) nm
  obtain ⟨h₁, h₂, h₃⟩ := hls c f x () (Nat.le_refl 2) hc
  obtain ⟨h₄, h₅⟩ := heq d f x () hd
  exact ⟨h₁ sumTwice sumTwice_computes hstart,
    h₂ sumTwice.toProblem sumTwice_computes hstart,
    h₃ sumTwiceByRows sumTwice_computes hstart,
    h₄ sumTwice.toProblem sumTwice_computes hstart,
    h₅ sumTwice sumTwice_computes hstart⟩

end NonlinearSolve

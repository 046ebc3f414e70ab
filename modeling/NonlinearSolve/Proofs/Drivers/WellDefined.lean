import Mathlib.Analysis.SpecialFunctions.Sqrt
import NonlinearSolve.Proofs.Checked.Minimization
import NonlinearSolve.Proofs.Drivers.LastJacobian
import NonlinearSolve.Proofs.LeastSquares.Cosines

/-! # Minimizations are well defined

In exact arithmetic no minimization ever divides by zero or takes the root of a negative number, and
every step begins with residuals that are not zero in a trust region that is not a point
(`minimizers_well_defined`). -/

namespace NonlinearSolve

open LeastSquares

variable {σ : Type} {m n : Nat}

/-- The three minimizations are well defined in exact arithmetic, whatever the problem, the rank of
its Jacobians and the settings are. The smallest number has to be positive and, for forward
differences, the precision too. -/
theorem minimizers_well_defined (ε : ℝ) {τ : ℝ} (hτ : 0 < τ) (z : Bool) (c : Config ℝ) (x : Vec ℝ n)
    (s : σ) :
    let nm := Numerics.exact ε τ z
    (∀ p : JacobianProblem σ ℝ m n,
      WellDefined (course nm c 100 p.toProblem id (fun h => analytic nm h p) x s)
        (minimize? nm c p x s) (minimize nm c p x s)) ∧
    (0 < ε → ∀ p : Problem σ ℝ m n,
      WellDefined (course nm c 200 p id (fun h => numerical nm h c.toSettings p) x s)
        (minimizeNumerically? nm c p x s) (minimizeNumerically nm c p x s)) ∧
    (∀ p : RowProblem σ ℝ m n,
      WellDefined (course nm c 100 p.toProblem (fun _ => Nat.le_refl n) (fun _ => rowwise nm p) x s)
        (minimizeRowwise? nm c p x s) (minimizeRowwise nm c p x s)) := by
  intro nm
  refine ⟨?_, ?_, ?_⟩
  · intro p
    exact wellDefined_run hτ c id (agrees_analytic · p) (recounts_analytic nm · p)
      (tapers_analytic ε τ z · p) (factors_analytic ε τ z · p) x s
  · intro hε p
    exact wellDefined_run hτ c id (agrees_numerical hε · c.toSettings p)
      (recounts_numerical nm · c.toSettings p) (tapers_numerical ε τ z · c.toSettings p)
      (factors_numerical ε τ z · c.toSettings p) x s
  · intro p
    exact wellDefined_run hτ c (fun _ => Nat.le_refl n) (fun _ => agrees_rowwise p)
      (fun _ => recounts_rowwise nm p) (fun _ => tapers_rowwise ε τ z p)
      (fun _ => factors_rowwise ε τ z p) x s

/-- A step is tried for `sumTwice`, row by row or not, because the cosines at the starting point are
one. -/
theorem prepared_sumTwice :
    let nm := Numerics.exact (1 / 100) 1 false
    let c := Config.default nm
    let x := Vec.const 2 (1 : ℝ)
    (course nm c 100 sumTwice.toProblem id (fun h => analytic nm h sumTwice) x () 1).stage =
        .prepared ∧
      (course nm c 100 sumTwiceByRows.toProblem (fun _ => Nat.le_refl 2)
        (fun _ => rowwise nm sumTwiceByRows) x () 1).stage = .prepared := by
  intro nm c x
  have hc : c.fault? 2 = none := Config.fault?_default two_ne_zero (by norm_num)
  have hne : Vec.const 2 (x 0 + x 1) ≠ Vec.zero 2 := Vec.const_ne_zero two_pos (by simp [x])
  have hcolumn : ∃ i, (Mat.of fun _ _ => 1 : Mat ℝ 2 2) i 0 ≠ 0 := ⟨0, by simp⟩
  have hcosine :
      c.gtol < columnCosine (Mat.of fun _ _ => 1 : Mat ℝ 2 2) (Vec.const 2 (x 0 + x 1)) 0 := by
    rw [columnCosine_of_eq_mul _ _ hcolumn (b := x 0 + x 1) (by simp [x]) (by simp)]
    change (1 / 100 : ℝ) * 30.0 < 1
    norm_num
  constructor
  · refine prepared_of_lt_columnCosine (k := 0) (recounts_analytic nm · sumTwice) le_rfl
      (factors_analytic (1 / 100) 1 false le_rfl sumTwice)
      (measures_analytic (1 / 100) 1 false le_rfl sumTwice) ?_ ?_ hne (fun _ _ => rfl) hcolumn
      hcosine
    · rw [course_eq le_rfl hc]
      rfl
    · rw [course_eq le_rfl hc]
      rfl
  · refine prepared_of_lt_columnCosine (k := 0) (fun _ => recounts_rowwise nm sumTwiceByRows)
      le_rfl (factors_rowwise (1 / 100) 1 false sumTwiceByRows)
      (measures_rowwise (1 / 100) 1 false sumTwiceByRows) ?_ ?_ hne
      rowwiseJacobian_sumTwiceByRows hcolumn hcosine
    · rw [course_eq le_rfl hc]
      rfl
    · rw [course_eq le_rfl hc]
      rfl

/-- The first step for `sumTwice` begins as it has to, row by row or not, and no minimization fails,
although the Jacobian has not full rank. -/
theorem minimizers_well_defined_sumTwice :
    let nm := Numerics.exact (1 / 100) 1 false
    let c := Config.default nm
    let x := Vec.const 2 (1 : ℝ)
    (course nm c 100 sumTwice.toProblem id (fun h => analytic nm h sumTwice) x () 1
      ).state.BeginsStep ∧
    (course nm c 100 sumTwiceByRows.toProblem (fun _ => Nat.le_refl 2)
      (fun _ => rowwise nm sumTwiceByRows) x () 1).state.BeginsStep ∧
    minimize? nm c sumTwice x () = some (minimize nm c sumTwice x ()) ∧
    minimizeNumerically? nm c sumTwice.toProblem x () =
      some (minimizeNumerically nm c sumTwice.toProblem x ()) ∧
    minimizeRowwise? nm c sumTwiceByRows x () =
      some (minimizeRowwise nm c sumTwiceByRows x ()) := by
  intro nm c x
  obtain ⟨hdense, hrows⟩ := prepared_sumTwice
  obtain ⟨h₁, h₂, h₃⟩ :=
    minimizers_well_defined (σ := Unit) (m := 2) (1 / 100) one_pos false c x ()
  exact ⟨(h₁ sumTwice).steps 1 hdense, (h₃ sumTwiceByRows).steps 1 hrows, (h₁ sumTwice).checked,
    (h₂ (by norm_num) sumTwice.toProblem).checked, (h₃ sumTwiceByRows).checked⟩

end NonlinearSolve

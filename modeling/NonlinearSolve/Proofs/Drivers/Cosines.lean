import NonlinearSolve.Proofs.Drivers.LastJacobian
import NonlinearSolve.Proofs.LeastSquares.Cosines

/-! # Orthogonality in minimizations

Every linearization of a minimization tests the largest cosine of the columns of its Jacobian,
whether the Jacobian is factored as a whole or folded in by its rows
(`minimizers_test_largest_cosine`). -/

namespace NonlinearSolve

open LeastSquares

variable {σ : Type} {m n : Nat}

/-- In exact arithmetic the cosine that is tested after a linearization is the largest one of the
columns that are not zero, whatever the rank of the Jacobian is. This holds for every state with
residuals that are not zero, and so for every minimization, which ends with the linearization
exactly if all of the cosines are within the tolerance. -/
theorem minimizers_test_largest_cosine (ε τ : ℝ) (z : Bool) (c : Config ℝ) (h : n ≤ m) :
    let nm := Numerics.exact ε τ z
    (0 ≤ c.gtol → ∀ (st : State ℝ m m n) (a : Mat ℝ m n),
      st.residualNorm = nm.vecNorm st.residuals → st.residuals ≠ Vec.zero m →
        let out := (st.factorize nm h a).2.adapt nm c h (st.factorize nm h a).1
        TestsCosines c a st.residuals out.2.cosine (out.1 = some .orthogonal)) ∧
    (0 ≤ c.gtol → ∀ (p : RowProblem σ ℝ m n) (st : State ℝ m n n) (s : σ) (norms : Vec ℝ n),
      st.residualNorm = nm.vecNorm st.residuals → st.residuals ≠ Vec.zero m →
      (rowwise nm p st s).1 = .ok norms →
        let out := (rowwise nm p st s).2.1.adapt nm c (Nat.le_refl n) norms
        ∃ a, rowwiseJacobian p st s = .ok a ∧
          TestsCosines c a st.residuals out.2.cosine (out.1 = some .orthogonal)) ∧
    (∀ (p : JacobianProblem σ ℝ m n) (x : Vec ℝ n) (s : σ),
      TestsLargestCosine (course nm c 100 p.toProblem id (fun h => analytic nm h p) x s)
        (attempts c p.toProblem fun h => analytic nm h p)
        (jacobianAt? c.toSettings p.toProblem (analyticJacobian p)) c (minimize nm c p x s).1) ∧
    (∀ (p : Problem σ ℝ m n) (x : Vec ℝ n) (s : σ),
      TestsLargestCosine (course nm c 200 p id (fun h => numerical nm h c.toSettings p) x s)
        (attempts c p fun h => numerical nm h c.toSettings p)
        (jacobianAt? c.toSettings p (numericalJacobian nm c.toSettings p)) c
        (minimizeNumerically nm c p x s).1) ∧
    (∀ (p : RowProblem σ ℝ m n) (x : Vec ℝ n) (s : σ),
      TestsLargestCosine
        (course nm c 100 p.toProblem (fun _ => Nat.le_refl n) (fun _ => rowwise nm p) x s)
        (attempts c p.toProblem fun _ => rowwise nm p)
        (jacobianAt? c.toSettings p.toProblem (rowwiseJacobian p)) c
        (minimizeRowwise nm c p x s).1) := by
  intro nm
  refine ⟨?_, ?_, ?_, ?_, ?_⟩
  · intro hgtol st a hres hne
    exact testsCosines_adapt hgtol (factors_factorize ε τ z h st a) (colNorm_factor ε τ z true a)
      hres hne
  · intro hgtol p st s norms hres hne hok
    obtain ⟨a, hjac, -⟩ := factors_rowwise ε τ z p st s norms hok
    exact ⟨a, hjac, testsCosines_linearize hgtol (recounts_rowwise nm p) (factors_rowwise ε τ z p)
      (measures_rowwise ε τ z p) hres hne hok hjac⟩
  · intro p x s
    exact testsLargestCosine_run id (recounts_analytic nm · p) (by decide) h
      (factors_analytic ε τ z h p) (measures_analytic ε τ z h p)
  · intro p x s
    exact testsLargestCosine_run id (recounts_numerical nm · c.toSettings p) (by decide) h
      (factors_numerical ε τ z h c.toSettings p) (measures_numerical ε τ z h c.toSettings p)
  · intro p x s
    exact testsLargestCosine_run (fun _ => Nat.le_refl n) (fun _ => recounts_rowwise nm p)
      (by decide) h (factors_rowwise ε τ z p) (measures_rowwise ε τ z p)

/-- The first cosine for `sumTwice` is one, row by row or not, as both columns of its Jacobian are
proportional to the residuals. A Jacobian of zeros has no cosine but zero. -/
theorem minimizers_test_largest_cosine_sumTwice :
    let nm := Numerics.exact 1 1 false
    let c := Config.default nm
    let x := Vec.const 2 (1 : ℝ)
    let mo := course nm c 100 sumTwice.toProblem id (fun h => analytic nm h sumTwice) x ()
    let mo' := course nm c 100 sumTwiceByRows.toProblem (fun _ => Nat.le_refl 2)
      (fun _ => rowwise nm sumTwiceByRows) x ()
    let out := ((mo 0).state.factorize nm le_rfl (Mat.zero 2 2)).2.adapt nm c le_rfl
      ((mo 0).state.factorize nm le_rfl (Mat.zero 2 2)).1
    (attempts c sumTwice.toProblem (fun h => analytic nm h sumTwice) (mo 0) = .completed ∧
      (mo 1).state.cosine = 1) ∧
    (attempts c sumTwiceByRows.toProblem (fun _ => rowwise nm sumTwiceByRows) (mo' 0) =
      .completed ∧ (mo' 1).state.cosine = 1) ∧
    out.1 = some .orthogonal := by
  intro nm c x mo mo' out
  have hc : c.fault? 2 = none := Config.fault?_default two_ne_zero zero_le_one
  set f : Vec ℝ 2 := Vec.const 2 (x 0 + x 1) with hf
  obtain ⟨hcomp, hres, hnorm⟩ :
      attempts c sumTwice.toProblem (fun h => analytic nm h sumTwice) (mo 0) = .completed ∧
        (mo 0).state.residuals = f ∧
        (mo 0).state.residualNorm = nm.vecNorm (mo 0).state.residuals := by
    simp only [mo, course_eq le_rfl hc]
    exact ⟨rfl, rfl, rfl⟩
  obtain ⟨hcomp', hres'⟩ :
      attempts c sumTwiceByRows.toProblem (fun _ => rowwise nm sumTwiceByRows) (mo' 0) =
        .completed ∧ (mo' 0).state.residuals = f := by
    simp only [mo', course_eq le_rfl hc]
    exact ⟨rfl, rfl⟩
  have hne : f ≠ Vec.zero 2 := Vec.const_ne_zero two_pos (by simp [x])
  -- the largest of two cosines that are one is one
  have hone : ∀ {g : ℝ}, IsLargestCosine (Mat.of fun _ _ => 1 : Mat ℝ 2 2) f g → g = 1 := by
    rintro g (⟨⟨j, hj, hlargest⟩, -⟩ | ⟨hzero, -⟩)
    · rw [← hlargest, columnCosine_of_eq_mul _ _ hj (b := x 0 + x 1) (by simp [x])
        (by simp [hf])]
    · exact absurd (hzero 0 0) (by simp)
  obtain ⟨hdense, -, hmin, -, hmin'⟩ :=
    minimizers_test_largest_cosine (σ := Unit) 1 1 false c (le_refl 2)
  refine ⟨⟨hcomp, ?_⟩, ⟨hcomp', ?_⟩, ?_⟩
  · obtain ⟨a, hjac, htests⟩ := hmin sumTwice x () 0 hcomp
    obtain rfl := eq_of_jacobianAt? (analyticJacobian sumTwice) (fun _ _ => rfl) hjac
    have hlargest := (htests (hres ▸ hne)).largest
    rw [hres] at hlargest
    exact hone hlargest
  · obtain ⟨a, hjac, htests⟩ := hmin' sumTwiceByRows x () 0 hcomp'
    obtain rfl := eq_of_jacobianAt? _ rowwiseJacobian_sumTwiceByRows hjac
    have hlargest := (htests (hres' ▸ hne)).largest
    rw [hres'] at hlargest
    exact hone hlargest
  · refine (hdense (Config.gtol_nonneg hc) (mo 0).state (Mat.zero 2 2) hnorm
      (hres ▸ hne)).ends_iff.2 ?_
    rintro j ⟨i, hij⟩
    exact absurd (Mat.zero_apply i j) hij

end NonlinearSolve

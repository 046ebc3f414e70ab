import NonlinearSolve.Proofs.Drivers.Iterates
import NonlinearSolve.Proofs.LeastSquares.Rowwise

/-! # Minimizing with the Jacobian and row by row

`minimize` factors the Jacobian as a whole, and `minimizeRowwise` folds in one row after the other.
In exact arithmetic this makes no difference but for the factorization itself
(`minimizeRowwise_follows_minimize`), also if the Jacobian is rank deficient. -/

namespace NonlinearSolve

namespace LeastSquares

open Matrix Scalar

variable {σ : Type} {m n : Nat} {ε τ : ℝ} {z : Bool}

section Solves

variable {p : JacobianProblem σ ℝ m n} {q : RowProblem σ ℝ m n}
  {jac : Vec ℝ n → Except Abort (Mat ℝ m n)} (hpq : q.toProblem = p.toProblem)
  (hjac : SameJacobian p q jac) (hτ : 0 < τ) (c : Config ℝ) (x : Vec ℝ n) (s : σ)

include hpq hjac hτ

/-- The moments of the two solves differ in the factorization only. -/
theorem exists_course_refactored (k : Nat) :
    ∃ factor order rhs,
      course (Numerics.exact ε τ z) c 100 q.toProblem (fun _ => Nat.le_refl n)
          (fun _ => rowwise (Numerics.exact ε τ z) q) x s k =
        refactored (course (Numerics.exact ε τ z) c 100 p.toProblem id
          (fun h => analytic (Numerics.exact ε τ z) h p) x s k) factor order rhs := by
  obtain ⟨M, heq, hscale⟩ := exists_course_converted c id (fun _ => Nat.le_refl n)
    (recounts_analytic (Numerics.exact ε τ z) · p) units_one_pos (problem_inUnits_one p.toProblem)
    hτ x s (fun h k s₁ hc _ _ => rowwise_inStep hjac (Config.pos_of_fault? hc) h c _ s₁) k
  rw [Vec.one_diagMul, converted_one hscale] at heq
  rw [hpq]
  exact ⟨M.factor, M.order, M.rhs, heq⟩

/-- The two solves report the same, and leave the callbacks in the same state. -/
theorem minimizeRowwise_summary :
    ((minimizeRowwise (Numerics.exact ε τ z) c q x s).1.toSummary,
        (minimizeRowwise (Numerics.exact ε τ z) c q x s).2) =
      ((minimize (Numerics.exact ε τ z) c p x s).1.toSummary,
        (minimize (Numerics.exact ε τ z) c p x s).2) := by
  obtain ⟨scale, hsummary, hworld, hscale⟩ := run_inStep c (by decide : 0 < 100) id
    (fun _ => Nat.le_refl n) (recounts_analytic (Numerics.exact ε τ z) · p)
    (fun _ => recounts_rowwise (Numerics.exact ε τ z) q) units_one_pos
    (problem_inUnits_one p.toProblem) hτ x s
    (fun h k s₁ hc _ _ => rowwise_inStep hjac (Config.pos_of_fault? hc) h c _ s₁)
  rw [Vec.perUnit_one, or_self] at hscale
  rw [Vec.one_diagMul, hscale, summary_inUnits_one] at hsummary
  rw [Vec.one_diagMul] at hworld
  rw [minimizeRowwise, minimize, hpq]
  exact Prod.ext hsummary hworld

end Solves

end LeastSquares

open LeastSquares

/-- In exact arithmetic, whatever the settings and the problem are: minimizing with the Jacobian and
minimizing row by row go through the same moments, with the same proposals, verdicts and iterates.
Only the factorizations may differ, even if a Jacobian has not full rank. Both solves report on the
same moment and report the same. They leave the callbacks in the same state, which may contain a
record of all points where the residuals were asked for. -/
theorem minimizeRowwise_follows_minimize (ε : ℝ) {τ : ℝ} (hτ : 0 < τ) (z : Bool) {σ : Type}
    {m n : Nat} {p : JacobianProblem σ ℝ m n} {q : RowProblem σ ℝ m n}
    {jac : Vec ℝ n → Except Abort (Mat ℝ m n)} (hpq : q.toProblem = p.toProblem)
    (hjac : SameJacobian p q jac) (c : Config ℝ) (x : Vec ℝ n) (s : σ) :
    let nm := Numerics.exact ε τ z
    let dense := course nm c 100 p.toProblem id (fun h => analytic nm h p) x s
    let rows := course nm c 100 q.toProblem (fun _ => Nat.le_refl n) (fun _ => rowwise nm q) x s
    let rep := (minimize nm c p x s).1
    let rep' := (minimizeRowwise nm c q x s).1
    (∀ k, ∃ factor order rhs, rows k = refactored (dense k) factor order rhs) ∧
      (∃ k₀, ∀ k, k₀ ≤ k →
        (dense k).stage = .ended rep.termination ∧ (dense k).state.report rep.termination = rep ∧
          (rows k).stage = .ended rep'.termination ∧
            (rows k).state.report rep'.termination = rep') ∧
      rep'.toSummary = rep.toSummary ∧
      (minimizeRowwise nm c q x s).2 = (minimize nm c p x s).2 := by
  intro nm dense rows rep rep'
  obtain ⟨k₁, hdense⟩ := exists_course_report nm c p.toProblem id x s (recounts_analytic nm · p)
    (by decide : 0 < 100)
  obtain ⟨k₂, hrows⟩ := exists_course_report nm c q.toProblem (fun _ => Nat.le_refl n) x s
    (fun _ => recounts_rowwise nm q) (by decide : 0 < 100)
  have hsummary := minimizeRowwise_summary (ε := ε) (z := z) hpq hjac hτ c x s
  obtain ⟨hsm, hs⟩ := Prod.mk.inj hsummary
  refine ⟨exists_course_refactored hpq hjac hτ c x s, ⟨max k₁ k₂, ?_⟩, hsm, hs⟩
  intro k hk
  obtain ⟨hstage, hrep⟩ := hdense k (le_trans (le_max_left k₁ k₂) hk)
  obtain ⟨hstage', hrep'⟩ := hrows k (le_trans (le_max_right k₁ k₂) hk)
  exact ⟨hstage, hrep, hstage', hrep'⟩

/-- Minimizing the sum of squares of `sumTwice`, row by row or not, starting where both unknowns are
one. -/
theorem minimizeRowwise_follows_minimize_sumTwice :
    let nm := Numerics.exact 1 1 false
    let c := Config.default nm
    let x := Vec.const 2 (1 : ℝ)
    (minimizeRowwise nm c sumTwiceByRows x ()).1.toSummary =
      (minimize nm c sumTwice x ()).1.toSummary := by
  intro nm c x
  have hjac : SameJacobian sumTwice sumTwiceByRows fun _ => .ok (Mat.of fun _ _ => 1) :=
    ⟨fun _ _ => rfl, fun _ _ _ => rfl⟩
  exact (minimizeRowwise_follows_minimize 1 one_pos false rfl hjac c x ()).2.2.1

end NonlinearSolve

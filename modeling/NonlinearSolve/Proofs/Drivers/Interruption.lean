import NonlinearSolve.Proofs.ForwardDifference.Sweep
import NonlinearSolve.Proofs.LeastSquares.Interruption
import NonlinearSolve.Proofs.Linear.Covariances

/-! # The report on an interrupted minimization

A minimization that is interrupted while it linearizes still has the last factorization that was
completed only if it minimizes with the Jacobian. The other two have written over it
(`minimizers_report_interruption`), and what they report as the covariance of the parameters is the
covariance by no Jacobian at all. -/

namespace NonlinearSolve

open LeastSquares ForwardDifference

section Solves

variable {σ α : Type} [Scalar α] {m n : Nat} (nm : Numerics α) (c : Config α) (x : Vec α n) (s : σ)

/-- What a minimization reports if it is interrupted, in terms of the last state that a completed
linearization has left. With the Jacobian, it reports the factorization in that state. With forward
differences, the ordering and the right hand side are those in that state, and so are the columns
from the interruption on; the columns before hold difference quotients at the final iterate. Row by
row, only the ordering is left, and the triangular system is that of the rows before the
interruption.

What is below the diagonal of the triangular factor does not belong to a factorization: there the
trial steps since then have left a factor of their own. In what is not overwritten, all is as it was
just before the interruption. -/
theorem minimizers_report_interruption (k i : Nat) (a : Abort) :
    (∀ p : JacobianProblem σ α m n,
      let moments := course nm c 100 p.toProblem id (fun h => analytic nm h p) x s
      let last := (moments (k + 1)).state
      let rep := (minimize nm c p x s).1
      Interrupted moments (attempts c p.toProblem fun h => analytic nm h p) k i a →
        rep.termination = .user a ∧ rep.factor = (moments i).state.factor ∧
          last.factor.SameButLower rep.factor ∧ rep.order = last.order ∧ rep.rhs = last.rhs ∧
          ∀ tol, rep.covariance tol = (last.report rep.termination).covariance tol) ∧
    (∀ p : Problem σ α m n,
      let moments := course nm c 200 p id (fun h => numerical nm h c.toSettings p) x s
      let last := (moments (k + 1)).state
      let rep := (minimizeNumerically nm c p x s).1
      let eps := relativeStep nm c.epsfcn
      Interrupted moments (attempts c p fun h => numerical nm h c.toSettings p) k i a →
        rep.termination = .user a ∧ rep.order = last.order ∧ rep.rhs = last.rhs ∧
          ∃ d : Fin n, AbortsAt p eps rep.x d a ∧
            (∀ j < d, HoldsQuotients p eps rep.x rep.residuals rep.factor j) ∧
            ∀ j, d ≤ j → rep.factor.col j = (moments i).state.factor.col j ∧
              last.factor.SameColumn rep.factor j) ∧
    (∀ p : RowProblem σ α m n,
      let moments := course nm c 100 p.toProblem (fun _ => Nat.le_refl n) (fun _ => rowwise nm p) x
        s
      let last := (moments (k + 1)).state
      let rep := (minimizeRowwise nm c p x s).1
      Interrupted moments (attempts c p.toProblem fun _ => rowwise nm p) k i a →
        rep.termination = .user a ∧ rep.order = last.order ∧
          ∃ (d : Fin m) (s₀ s₁ s₂ : σ), p.jacobianRow rep.x d s₁ = (.error a, s₂) ∧
            foldRows p rep.x rep.residuals ((List.finRange m).take d) (Mat.zero n n) (Vec.zero n)
              s₀ = (.ok (), rep.factor, rep.rhs, s₁)) := by
  refine ⟨?_, ?_, ?_⟩
  · intro p moments last rep hint
    obtain ⟨h, s', herror, hrep, hfactor, horder, hrhs⟩ :=
      hint.exists_linearize (recounts_analytic nm · p) (by decide)
    obtain ⟨_, s₀, norms, hok, hlast⟩ := exists_factorization_of_completed hint.completed
    have hbij : Function.Bijective last.order.get := by
      rw [show last.order = _ from hlast.order]
      exact analytic_completed hok
    rw [analytic_interrupted herror] at hrep
    have hreport : rep = (moments i).state.report (.user a) := hrep
    rw [hreport]
    refine ⟨rfl, rfl, hfactor, horder, hrhs, ?_⟩
    intro tol
    -- the covariance depends on the factorization alone
    rw [Report.covariance, Report.covariance, dif_pos h, dif_pos h]
    change Covariance.ofFactor ((moments i).state.factor.leading h) (moments i).state.order tol = _
    rw [show (moments i).state.order = last.order from horder]
    exact (Covariance.ofFactor_congr (hfactor.leading h) hbij tol).symm
  · intro p moments last rep eps hint
    obtain ⟨h, s', herror, hrep, hfactor, horder, hrhs⟩ :=
      hint.exists_linearize (recounts_numerical nm · c.toSettings p) (by decide)
    obtain ⟨b, hstate, d, habort, hbefore, hafter⟩ := numerical_interrupted herror
    have hreport : rep = { (moments i).state with factor := b }.report (.user a) :=
      hrep.trans (congrArg (State.report · (.user a)) hstate)
    rw [hreport]
    refine ⟨rfl, horder, hrhs, d, habort, hbefore, ?_⟩
    intro j hj
    have hcol : b.col j = (moments i).state.factor.col j := hafter j hj
    refine ⟨hcol, ?_⟩
    intro l hl
    have hentry : b l j = (moments i).state.factor l j := congrArg (Vec.get · l) hcol
    exact (hfactor j l hl).trans hentry.symm
  · intro p moments last rep hint
    obtain ⟨h, s', herror, hrep, -, horder, -⟩ :=
      hint.exists_linearize (fun _ => recounts_rowwise nm p) (by decide)
    obtain ⟨q, b, hstate, d, s₁, s₂, habort, hrows⟩ := rowwise_interrupted herror
    have hreport : rep = { (moments i).state with factor := q, rhs := b }.report (.user a) :=
      hrep.trans (congrArg (State.report · (.user a)) hstate)
    rw [hreport]
    exact ⟨rfl, horder, d, s', s₁, s₂, habort, hrows⟩

end Solves

/-! ### A square root -/

namespace SquareRoot

/-- The equation `x ^ 2 = 2` in binary64, with its Jacobian, which can be computed only once. The
state of the callbacks counts the Jacobians that were asked for. -/
def withJacobian : JacobianProblem Nat Float 1 1 where
  evaluate x s := (.ok (x.map fun y => y * y - 2), s)
  jacobian x s :=
    (if s = 0 then .ok (Mat.of fun _ j => 2 * x j) else .error (.ofStatus (-1)), s + 1)

/-- The equation `x ^ 2 = 2` in binary64, which can be evaluated only three times. The state of the
callbacks counts the evaluations. -/
def withDifferences : Problem Nat Float 1 1 where
  evaluate x s := (if s < 3 then .ok (x.map fun y => y * y - 2) else .error (.ofStatus (-1)), s + 1)

/-- The equation `x ^ 2 = 2` in binary64, with the only row of its Jacobian, which can be computed
only once. The state of the callbacks counts the rows that were asked for. -/
def withRows : RowProblem Nat Float 1 1 where
  evaluate x s := (.ok (x.map fun y => y * y - 2), s)
  jacobianRow x _ s :=
    (if s = 0 then .ok (x.map fun y => 2 * y) else .error (.ofStatus (-1)), s + 1)

end SquareRoot

/-- Each of the three minimizations that start at one linearizes there, accepts its first step, and
is interrupted when it linearizes again. -/
theorem squareRoot_interrupted :
    let nm := Numerics.binary64
    let c := Config.default nm
    let x := Vec.const 1 (1 : Float)
    let p := SquareRoot.withJacobian
    let q := SquareRoot.withDifferences
    let w := SquareRoot.withRows
    Interrupted (course nm c 100 p.toProblem id (fun h => analytic nm h p) x 0)
        (attempts c p.toProblem fun h => analytic nm h p) 0 3 {} ∧
      Interrupted (course nm c 200 q id (fun h => numerical nm h c.toSettings q) x 0)
        (attempts c q fun h => numerical nm h c.toSettings q) 0 3 {} ∧
      Interrupted (course nm c 100 w.toProblem (fun _ => Nat.le_refl 1) (fun _ => rowwise nm w) x 0)
        (attempts c w.toProblem fun _ => rowwise nm w) 0 3 {} := by
  intro nm c x p q w
  refine ⟨interrupted_of_aborted ?_ ?_ ?_, interrupted_of_aborted ?_ ?_ ?_,
    interrupted_of_aborted ?_ ?_ ?_⟩ <;> decide +kernel

/-- The minimization with the Jacobian and the one with forward differences report the first
factorization: there is only one column, so the differences are interrupted before they have
overwritten anything. The minimization by rows reports nothing but zeros. -/
theorem minimizers_report_interruption_squareRoot :
    let nm := Numerics.binary64
    let c := Config.default nm
    let x := Vec.const 1 (1 : Float)
    let p := SquareRoot.withJacobian
    let q := SquareRoot.withDifferences
    let w := SquareRoot.withRows
    let first := (course nm c 100 p.toProblem id (fun h => analytic nm h p) x 0 1).state
    let first' := (course nm c 200 q id (fun h => numerical nm h c.toSettings q) x 0 1).state
    (minimize nm c p x 0).1.factor = first.factor ∧ (minimize nm c p x 0).1.rhs = first.rhs ∧
      (minimizeNumerically nm c q x 0).1.factor.col 0 = first'.factor.col 0 ∧
      (minimizeRowwise nm c w x 0).1.factor = Mat.zero 1 1 ∧
      (minimizeRowwise nm c w x 0).1.rhs = Vec.zero 1 := by
  intro nm c x p q w first first'
  obtain ⟨hint, hint', hint''⟩ := squareRoot_interrupted
  obtain ⟨hjacobian, hdifferences, hrows⟩ := minimizers_report_interruption nm c x 0 0 3 {}
  obtain ⟨-, -, hfactor, -, hrhs, -⟩ := hjacobian p hint
  obtain ⟨-, -, -, d, -, -, hafter⟩ := hdifferences q hint'
  obtain ⟨-, -, e, s₀, s₁, -, -, hfold⟩ := hrows w hint''
  -- there is nothing below the diagonal of a single entry
  have hentry : ∀ i j : Fin 1, i.val ≤ j.val := fun i j => (Subsingleton.elim i j).le
  have hsame : (minimize nm c p x 0).1.factor = first.factor :=
    Mat.ext fun i j => (hfactor j i (.inl (hentry i j))).symm
  have hsame' : (minimizeNumerically nm c q x 0).1.factor.col 0 = first'.factor.col 0 :=
    Vec.ext fun i => ((hafter 0 (hentry d 0)).2 i (.inl (hentry i 0))).symm
  -- no row comes before the first one, which is the only one
  obtain rfl := Subsingleton.elim e 0
  obtain ⟨-, hzero⟩ := Prod.mk.inj hfold
  obtain ⟨hfactor'', hrest⟩ := Prod.mk.inj hzero
  exact ⟨hsame, hrhs, hsame', hfactor''.symm, (Prod.mk.inj hrest).1.symm⟩

/-- The covariance that is reported after an interruption need not be that of the last factorization
that was completed: here that one has full rank, and the rank that is reported is zero. -/
theorem interrupted_covariance_squareRoot :
    let nm := Numerics.binary64
    let c := Config.default nm
    let x := Vec.const 1 (1 : Float)
    let w := SquareRoot.withRows
    let moments := course nm c 100 w.toProblem (fun _ => Nat.le_refl 1) (fun _ => rowwise nm w) x 0
    let rep := (minimizeRowwise nm c w x 0).1
    Interrupted moments (attempts c w.toProblem fun _ => rowwise nm w) 0 3 {} ∧
      (((moments 1).state.report rep.termination).covariance 0).rank = 1 ∧
      (rep.covariance 0).rank = 0 := by
  intro nm c x w moments rep
  obtain ⟨-, -, hint⟩ := squareRoot_interrupted
  refine ⟨hint, ?_, ?_⟩ <;> decide +kernel

end NonlinearSolve

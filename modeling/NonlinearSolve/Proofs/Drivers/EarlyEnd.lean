import NonlinearSolve.Proofs.Course.EarlyEnd
import NonlinearSolve.Proofs.Drivers.Descent
import NonlinearSolve.Proofs.Equations.Aborts
import NonlinearSolve.Proofs.LeastSquares.Aborts

/-! # The early end of every solver

Whether a solver ends as soon as the residuals are zero is a parameter of the arithmetic, which
nothing but the first evaluation and the verdicts read (`Numerics.stopping`). So in exact arithmetic
the parameter makes no difference to the iterate that is reported by any of the solvers
(`solvers_agree_up_to_zero`). -/

namespace NonlinearSolve

variable {σ α : Type} [Scalar α] {m r n : Nat}

/-! ### What does not depend on the early end -/

/-- The arithmetic that ends a solve early at zero residuals if `b` says so. -/
def Numerics.stopping (nm : Numerics α) (b : Bool) : Numerics α := { nm with stopAtZero := b }

section Independence

variable (nm : Numerics α) (b : Bool)

/-- The elimination does not look at the early end. -/
theorem Elimination.after_stopping (pivot : Bool) (a : Mat α m n) (k : Nat) :
    Elimination.after (nm.stopping b) pivot a k = Elimination.after nm pivot a k := by
  induction k with
  | zero => rfl
  | succ k ih =>
    rw [Elimination.after, Elimination.after, ih]
    rfl

/-- The factorization does not look at the early end. -/
theorem QR.factor_stopping (pivot : Bool) (a : Mat α m n) :
    QR.factor (nm.stopping b) pivot a = QR.factor nm pivot a := by
  rw [QR.factor, QR.factor, Elimination.after_stopping]

/-- The search for the damping does not look at the early end. -/
theorem Subproblem.search_stopping (sp : Subproblem α n) (k : Nat) (br : Subproblem.Bracket α) :
    sp.search (nm.stopping b) k br = sp.search nm k br := by
  induction k generalizing sp br with
  | zero => rfl
  | succ k ih =>
    rw [Subproblem.search, Subproblem.search, ih]
    rfl

/-- The step of the trust region does not look at the early end. -/
theorem Subproblem.solve_stopping (sp : Subproblem α n) (estimate : α) :
    sp.solve (nm.stopping b) estimate = sp.solve nm estimate := by
  rw [Subproblem.solve, Subproblem.solve, Subproblem.search_stopping]
  rfl

/-- A rank-one update does not look at the early end. -/
theorem Trapezoid.rankOne_stopping (h : n ≤ m) (s : Trapezoid α m n) (u : Vec α m) (v : Vec α n) :
    s.rankOne (nm.stopping b) h u v = s.rankOne nm h u v := by
  cases n with
  | zero => rfl
  | succ k => rfl

end Independence

/-! ### Least squares -/

namespace LeastSquares

section Independence

variable (nm : Numerics α) (b : Bool)

/-- Linearizing with the Jacobian of the problem does not look at the early end. -/
theorem analytic_stopping (h : n ≤ m) (p : JacobianProblem σ α m n) :
    analytic (nm.stopping b) h p = analytic nm h p := by
  funext st s
  simp only [analytic, State.factorize, QR.factor_stopping]

/-- Linearizing by differences does not look at the early end. -/
theorem numerical_stopping (h : n ≤ m) (c : Settings α) (p : Problem σ α m n) :
    numerical (nm.stopping b) h c p = numerical nm h c p := by
  funext st s
  simp only [numerical, State.factorize, QR.factor_stopping]
  rfl

/-- Linearizing row by row does not look at the early end. -/
theorem rowwise_stopping (p : RowProblem σ α m n) :
    rowwise (nm.stopping b) p = rowwise nm p := by
  funext st s
  simp only [rowwise, State.settle, QR.factor_stopping]
  rfl

/-- A step is proposed without a look at the early end. -/
theorem propose_stopping (h : n ≤ r) (st : State α m r n) :
    st.propose (nm.stopping b) h = st.propose nm h := by
  rw [State.propose, State.propose, Subproblem.solve_stopping]
  rfl

end Independence

variable {ε δ : ℝ} {c : Config ℝ} {p : Problem σ ℝ m n}

/-- Only a verdict with zero residuals depends on the early end. -/
theorem endsAtZero_method {budget : Nat} {h : n ≤ r} {linearize : Linearize σ ℝ m r n} :
    (method (Numerics.exact ε δ true) c budget h p linearize).EndsAtZero
      (method (Numerics.exact ε δ false) c budget h p linearize)
      (accepts (Numerics.exact ε δ true) h) (Numerics.exact ε δ true) where
  start := rfl
  iterate := rfl
  prepare := rfl
  propose := funext fun st => propose_stopping (Numerics.exact ε δ false) true h st
  judge st t f := by
    change st.judge (Numerics.exact ε δ true) c budget h t f =
      (_, (st.judge (Numerics.exact ε δ false) c budget h t f).2)
    change _ = (if _ then _ else (st.judge (Numerics.exact ε δ false) c budget h t f).1, _)
    rw [judge_eq, judge_eq]
    -- without the early end the first of the verdicts is never given
    simp only [show (Numerics.exact ε δ false).stopAtZero = false from rfl,
      show (Numerics.exact ε δ true).stopAtZero = true from rfl, Bool.false_and, Bool.and_false,
      Bool.true_and, Bool.false_eq_true, if_false]
    rfl

/-- Least squares solves with and without the early end agree up to zero residuals. -/
theorem agreesUpToZero_run {patience : Nat} (rows : n ≤ m → n ≤ r)
    (linearize : n ≤ m → Linearize σ ℝ m r n) (h : n ≤ m) (hl : (linearize h).Recounts)
    (hpat : 0 < patience) (hc : c.fault? n = none) (x : Vec ℝ n) (s : σ) :
    Method.AgreesUpToZero (accepts (Numerics.exact ε δ true) (rows h)) p x s
      (course (Numerics.exact ε δ true) c patience p rows linearize x s)
      (course (Numerics.exact ε δ false) c patience p rows linearize x s) Report.toSummary
      (run (Numerics.exact ε δ true) c patience p rows linearize x s)
      (run (Numerics.exact ε δ false) c patience p rows linearize x s) := by
  have hpos : 0 < c.budget patience n := Settings.budget_pos (Config.settings_fault? hc) hpat
  rw [course_eq h hc, course_eq h hc, run_eq h hc, run_eq h hc]
  exact endsAtZero_method.agreesUpToZero (steady_method hl) acceptsDescent_method
    (keepsBudget_method hl) (keepsBudget_method hl) hpos State.report Report.toSummary
    fun _ _ => rfl

end LeastSquares

/-! ### Equations -/

namespace Equations

section Independence

variable (nm : Numerics α) (b : Bool)

/-- The equations are prepared without a look at the early end. -/
theorem prepare_stopping (c : Config α) (p : Problem σ α n n) (linearize : Linearize σ α n) :
    prepare (nm.stopping b) c p linearize = prepare nm c p linearize := by
  funext st s
  simp only [prepare, refresh, State.factorize, QR.factor_stopping]
  rfl

/-- How the equations go on after a step does not depend on the early end. -/
theorem continued_stopping (st : State α n) (t : Proposal α n) (f : Vec α n) :
    st.continued (nm.stopping b) t f = st.continued nm t f := by
  simp only [State.continued, State.broyden, Trapezoid.rankOne_stopping]
  rfl

end Independence

variable {ε δ : ℝ} {c : Config ℝ} {p : Problem σ ℝ n n} {linearize : Linearize σ ℝ n}

/-- Zero residuals end a solve in any case, with the verdict that the iterate has converged if not
earlier. -/
theorem stop?_of_zero (st : State ℝ n) (budget : Nat) (accepted : Bool) (length : ℝ)
    (hzero : st.residualNorm = 0) :
    st.stop? (Numerics.exact ε δ false) c budget accepted length =
      some (.converged false true) := by
  have hbeq : (st.residualNorm == 0) = true := (Exact.beq_iff _ _).2 hzero
  have hstop : (accepted && (Numerics.exact ε δ false).stopAtZero && st.residualNorm == 0) =
      false := by
    rw [show (Numerics.exact ε δ false).stopAtZero = false from rfl, Bool.and_false,
      Bool.false_and]
  rw [State.stop?, hstop, if_neg Bool.false_ne_true, hbeq, if_pos (by rw [Bool.or_true])]

/-- The early end comes before all other tests, and only at zero residuals. -/
theorem stop?_endsAtZero (st : State ℝ n) (budget : Nat) (accepted : Bool) (length : ℝ) :
    st.stop? (Numerics.exact ε δ true) c budget accepted length =
      if accepted && st.residualNorm == 0 then some .residualsZero
      else st.stop? (Numerics.exact ε δ false) c budget accepted length := by
  rw [State.stop?, State.stop?, show (Numerics.exact ε δ true).stopAtZero = true from rfl,
    show (Numerics.exact ε δ false).stopAtZero = false from rfl, Bool.and_true, Bool.and_false,
    Bool.false_and, if_neg Bool.false_ne_true]
  rfl

/-- The residuals at the proposed point decide, if it is accepted. -/
theorem accepted_residualNorm_after (st : State ℝ n) (t : Proposal ℝ n) (f : Vec ℝ n) :
    (accepts (Numerics.exact ε δ true) st t f &&
        (st.after (Numerics.exact ε δ true) t f).residualNorm == 0) =
      (accepts (Numerics.exact ε δ true) st t f && (Numerics.exact ε δ true).vecNorm f == 0) := by
  have hpos := position_after (Numerics.exact ε δ true) st t f
  rcases hacc : accepts (Numerics.exact ε δ true) st t f with _ | _
  · rfl
  · rw [hacc, if_pos rfl] at hpos
    have hresidual : (st.after (Numerics.exact ε δ true) t f).residualNorm =
      (Numerics.exact ε δ true).vecNorm f := congrArg Position.residualNorm hpos
    rw [hresidual]

/-- Only a verdict with zero residuals depends on the early end. -/
theorem endsAtZero_method {budget : Nat} :
    (method (Numerics.exact ε δ true) c budget p linearize).EndsAtZero
      (method (Numerics.exact ε δ false) c budget p linearize)
      (accepts (Numerics.exact ε δ true)) (Numerics.exact ε δ true) where
  start := rfl
  iterate := rfl
  prepare := prepare_stopping (Numerics.exact ε δ false) true c p linearize
  propose := rfl
  judge st t f := by
    change st.judge (Numerics.exact ε δ true) c budget t f =
      (if _ then _ else (st.judge (Numerics.exact ε δ false) c budget t f).1,
        (st.judge (Numerics.exact ε δ false) c budget t f).2)
    have hafter : st.after (Numerics.exact ε δ false) t f =
      st.after (Numerics.exact ε δ true) t f := rfl
    have hcontinued := continued_stopping (Numerics.exact ε δ false) true st t f
    have haccepts : accepts (Numerics.exact ε δ false) st t f =
      accepts (Numerics.exact ε δ true) st t f := rfl
    have hzero := accepted_residualNorm_after (ε := ε) (δ := δ) st t f
    rw [judge_eq, judge_eq, hafter, haccepts, ← hcontinued, stop?_endsAtZero, ← hzero]
    by_cases hend : (accepts (Numerics.exact ε δ true) st t f &&
        (st.after (Numerics.exact ε δ true) t f).residualNorm == 0) = true
    · -- both solves end here, for different reasons
      obtain ⟨-, hnorm⟩ := (Bool.and_eq_true _ _).mp hend
      rw [if_pos hend, if_pos hend, stop?_of_zero _ _ _ _ ((Exact.beq_iff _ _).1 hnorm)]
    · rw [if_neg hend, if_neg hend]
      rcases (st.after (Numerics.exact ε δ true) t f).stop? (Numerics.exact ε δ false) c budget
        (accepts (Numerics.exact ε δ true) st t f) t.length with _ | reason <;> rfl

/-- Solves of a system of equations with and without the early end agree up to zero residuals. -/
theorem agreesUpToZero_run {patience : Nat} (hl : linearize.Recounts) (hpat : 0 < patience)
    (hc : c.fault? n = none) (x : Vec ℝ n) (s : σ) :
    Method.AgreesUpToZero (accepts (Numerics.exact ε δ true)) p x s
      (course (Numerics.exact ε δ true) c patience p linearize x s)
      (course (Numerics.exact ε δ false) c patience p linearize x s) Report.toSummary
      (run (Numerics.exact ε δ true) c patience p linearize x s)
      (run (Numerics.exact ε δ false) c patience p linearize x s) := by
  have hpos : 0 < c.budget patience n := Settings.budget_pos (Config.settings_fault? hc) hpat
  rw [course_eq hc, course_eq hc, run_eq hc, run_eq hc]
  exact endsAtZero_method.agreesUpToZero (steady_method hl) acceptsDescent_method
    (keepsBudget_method hl) (keepsBudget_method hl) hpos State.report Report.toSummary
    fun _ _ => rfl

end Equations

/-! ### All solvers -/

open LeastSquares in
/-- In exact arithmetic it makes no difference to the iterate whether a solver ends as soon as the
residuals are zero, whatever the problem and the settings are. -/
theorem solvers_agree_up_to_zero (ε δ : ℝ) (c : LeastSquares.Config ℝ) (d : Equations.Config ℝ)
    (x : Vec ℝ n) (s : σ) :
    let nm := Numerics.exact ε δ true
    let nm' := Numerics.exact ε δ false
    (∀ h : n ≤ m, c.fault? n = none →
      (∀ p : JacobianProblem σ ℝ m n,
        Method.AgreesUpToZero (accepts nm h) p.toProblem x s
          (course nm c 100 p.toProblem id (fun h => analytic nm h p) x s)
          (course nm' c 100 p.toProblem id (fun h => analytic nm' h p) x s) Report.toSummary
          (minimize nm c p x s) (minimize nm' c p x s)) ∧
      (∀ p : Problem σ ℝ m n,
        Method.AgreesUpToZero (accepts nm h) p x s
          (course nm c 200 p id (fun h => numerical nm h c.toSettings p) x s)
          (course nm' c 200 p id (fun h => numerical nm' h c.toSettings p) x s) Report.toSummary
          (minimizeNumerically nm c p x s) (minimizeNumerically nm' c p x s)) ∧
      (∀ p : RowProblem σ ℝ m n,
        Method.AgreesUpToZero (accepts nm (Nat.le_refl n)) p.toProblem x s
          (course nm c 100 p.toProblem (fun _ => Nat.le_refl n) (fun _ => rowwise nm p) x s)
          (course nm' c 100 p.toProblem (fun _ => Nat.le_refl n) (fun _ => rowwise nm' p) x s)
          Report.toSummary (minimizeRowwise nm c p x s) (minimizeRowwise nm' c p x s))) ∧
    (d.fault? n = none →
      (∀ p : Problem σ ℝ n n,
        Method.AgreesUpToZero (Equations.accepts nm) p x s
          (Equations.course nm d 200 p (Equations.numerical nm d p) x s)
          (Equations.course nm' d 200 p (Equations.numerical nm' d p) x s)
          Equations.Report.toSummary (Equations.solve nm d p x s) (Equations.solve nm' d p x s)) ∧
      (∀ p : JacobianProblem σ ℝ n n,
        Method.AgreesUpToZero (Equations.accepts nm) p.toProblem x s
          (Equations.course nm d 100 p.toProblem (Equations.analytic p) x s)
          (Equations.course nm' d 100 p.toProblem (Equations.analytic p) x s)
          Equations.Report.toSummary (Equations.solveWithJacobian nm d p x s)
          (Equations.solveWithJacobian nm' d p x s))) := by
  intro nm nm'
  refine ⟨fun h hc => ⟨?_, ?_, ?_⟩, fun hd => ⟨?_, ?_⟩⟩
  · intro p
    have hlinearize : (fun h : n ≤ m => analytic nm h p) = fun h => analytic nm' h p :=
      funext fun h => analytic_stopping nm' true h p
    rw [minimize, minimize, hlinearize]
    exact agreesUpToZero_run id _ h (recounts_analytic nm' h p) (by decide) hc x s
  · intro p
    have hlinearize : (fun h : n ≤ m => numerical nm h c.toSettings p) =
        fun h => numerical nm' h c.toSettings p :=
      funext fun h => numerical_stopping nm' true h c.toSettings p
    rw [minimizeNumerically, minimizeNumerically, hlinearize]
    exact agreesUpToZero_run id _ h (recounts_numerical nm' h c.toSettings p) (by decide) hc x s
  · intro p
    have hlinearize : rowwise nm p = rowwise nm' p := rowwise_stopping nm' true p
    rw [minimizeRowwise, minimizeRowwise, hlinearize]
    exact agreesUpToZero_run (fun _ => Nat.le_refl n) _ h (recounts_rowwise nm' p) (by decide) hc x
      s
  · intro p
    rw [Equations.solve, Equations.solve, dif_pos rfl, dif_pos rfl]
    exact Equations.agreesUpToZero_run (Equations.recounts_numerical nm' d p) (by decide) hd x s
  · intro p
    rw [Equations.solveWithJacobian, Equations.solveWithJacobian, dif_pos rfl, dif_pos rfl]
    exact Equations.agreesUpToZero_run (Equations.recounts_analytic p) (by decide) hd x s

open LeastSquares in
/-- The solvers agree on `sumTwice` from where both unknowns are zero: none of them leaves the
starting point, whether it ends there at once or not. -/
theorem solvers_agree_up_to_zero_sumTwice :
    let nm := Numerics.exact 1 1 true
    let nm' := Numerics.exact 1 1 false
    let c := LeastSquares.Config.default nm
    let d := Equations.Config.default nm
    let x := Vec.zero 2
    ((minimize nm' c sumTwice x ()).1.x = (minimize nm c sumTwice x ()).1.x ∧
      ∀ k t v, ¬ Method.AcceptsStep (accepts nm (Nat.le_refl 2)) sumTwice.toProblem
        (course nm' c 100 sumTwice.toProblem id (fun h => analytic nm' h sumTwice) x () k)
          t v) ∧
    ((Equations.solveWithJacobian nm' d sumTwice x ()).1.x =
        (Equations.solveWithJacobian nm d sumTwice x ()).1.x ∧
      ∀ k t v, ¬ Method.AcceptsStep (Equations.accepts nm) sumTwice.toProblem
        (Equations.course nm' d 100 sumTwice.toProblem (Equations.analytic sumTwice) x () k)
          t v) := by
  intro nm nm' c d x
  have hc : c.fault? 2 = none := LeastSquares.Config.fault?_default two_ne_zero zero_le_one
  have hd : d.fault? 2 = none := Equations.Config.fault?_default two_ne_zero
  have hstart : sumTwice.evaluate x () = (.ok (Vec.zero 2), ()) := by
    have hzero : Vec.const 2 (x 0 + x 1) = Vec.zero 2 :=
      Vec.ext fun i => by rw [Vec.const_apply, Vec.zero_apply, Vec.zero_apply, add_zero,
        Vec.zero_apply]
    exact congrArg (fun v => (Except.ok v, ())) hzero
  obtain ⟨hls, heq⟩ := solvers_agree_up_to_zero (σ := Unit) (m := 2) 1 1 c d x ()
  have h₁ := (hls (Nat.le_refl 2) hc).1 sumTwice
  have h₂ := (heq hd).2 sumTwice
  exact ⟨⟨h₁.x_eq, h₁.rests_of_start hstart⟩, h₂.x_eq, h₂.rests_of_start hstart⟩

end NonlinearSolve

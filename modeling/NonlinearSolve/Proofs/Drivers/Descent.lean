import NonlinearSolve.Proofs.Course.Descent
import NonlinearSolve.Proofs.Drivers.Iterates

/-! # The descent of every solver

In exact arithmetic no solver ever accepts a step that does not make the norm of the residuals
smaller: the predicted reduction cannot be negative, so a ratio that is large enough takes an actual
reduction. `solvers_descend` draws the conclusions for whole solves. -/

namespace NonlinearSolve

variable {σ : Type} {m r n : Nat} {ε τ : ℝ} {z : Bool}

/-! ### Least squares -/

namespace LeastSquares

/-- The linear model never predicts an increase. -/
theorem State.predicted_nonneg (nm : Numerics ℝ) (h : n ≤ r) (st : State ℝ m r n)
    (t : Proposal ℝ n) (norm1 : ℝ) : 0 ≤ (st.gain nm h t norm1).predicted := by
  unfold State.gain
  simp only
  refine add_nonneg (mul_self_nonneg _) ?_
  exact div_nonneg (mul_self_nonneg _) (by norm_num)

/-- Something is gained only if the norm of the residuals becomes smaller. -/
theorem lt_of_actualReduction_pos {norm norm1 : ℝ} (hnonneg : 0 ≤ norm1)
    (hpos : 0 < actualReduction norm norm1) : norm1 < norm := by
  unfold actualReduction at hpos
  by_cases hlt : 0.1 * norm1 < norm
  · rw [if_pos hlt, Scalar.square, sub_pos] at hpos
    have hnorm : 0 < norm := lt_of_le_of_lt (mul_nonneg (by norm_num) hnonneg) hlt
    have hratio : norm1 / norm < 1 := lt_of_mul_self_lt_mul_self₀ zero_le_one (by rwa [mul_one])
    exact (div_lt_one hnorm).1 hratio
  · rw [if_neg hlt] at hpos
    linarith

/-- An acceptable gain is an actual reduction. -/
theorem State.actual_pos_of_acceptable {nm : Numerics ℝ} {h : n ≤ r} {st : State ℝ m r n}
    {t : Proposal ℝ n} {norm1 : ℝ} (hacc : (st.gain nm h t norm1).acceptable = true) :
    0 < (st.gain nm h t norm1).actual := by
  have hpred := st.predicted_nonneg nm h t norm1
  have hratio : (0.0001 : ℝ) ≤ (st.gain nm h t norm1).ratio := of_decide_eq_true hacc
  change (0.0001 : ℝ) ≤ if (st.gain nm h t norm1).predicted == 0 then 0
    else (st.gain nm h t norm1).actual / (st.gain nm h t norm1).predicted at hratio
  by_contra hnonpos
  -- without a reduction the ratio is not positive, whatever is predicted
  have hle : (st.gain nm h t norm1).actual / (st.gain nm h t norm1).predicted ≤ 0 :=
    div_nonpos_of_nonpos_of_nonneg (not_lt.1 hnonpos) hpred
  split at hratio
  · norm_num at hratio
  · linarith

/-- A minimization moves only to residuals of smaller norm. -/
theorem acceptsDescent_method {c : Config ℝ} {budget : Nat} {h : n ≤ r} {p : Problem σ ℝ m n}
    {linearize : Linearize σ ℝ m r n} :
    (method (Numerics.exact ε τ z) c budget h p linearize).AcceptsDescent
      (accepts (Numerics.exact ε τ z) h) (Numerics.exact ε τ z) := by
  intro st t v hacc
  have hnorm := Numerics.vecNorm_exact_nonneg ε τ z v
  exact lt_of_actualReduction_pos hnorm (State.actual_pos_of_acceptable hacc)

/-- Every least squares solve descends. -/
theorem descends_run {c : Config ℝ} {patience : Nat} {p : Problem σ ℝ m n} (rows : n ≤ m → n ≤ r)
    (linearize : n ≤ m → Linearize σ ℝ m r n) (h : n ≤ m) (hl : (linearize h).Recounts)
    (hpat : 0 < patience) (hc : c.fault? n = none) (x : Vec ℝ n) (s : σ) :
    (method (Numerics.exact ε τ z) c (c.budget patience n) (rows h) p (linearize h)).Descends
      (accepts (Numerics.exact ε τ z) (rows h)) (Numerics.exact ε τ z) c.toSettings p x s
      (run (Numerics.exact ε τ z) c patience p rows linearize x s).1.toSummary := by
  have hpos : 0 < c.budget patience n := Settings.budget_pos (Config.settings_fault? hc) hpat
  simp only [run_eq h hc, Method.run_eq]
  exact (steady_method hl).descends acceptsDescent_method (keepsBudget_method hl) hpos

end LeastSquares

/-! ### Equations -/

namespace Equations

/-- An acceptable gain is one with smaller residuals. -/
theorem State.lt_of_acceptable {nm : Numerics ℝ} {st : State ℝ n} {model : Vec ℝ n} {norm1 : ℝ}
    (hacc : (st.gain nm model norm1).acceptable = true) : norm1 < st.residualNorm := by
  have hratio : (0.0001 : ℝ) ≤ (st.gain nm model norm1).ratio := of_decide_eq_true hacc
  change (0.0001 : ℝ) ≤ if 0 < (st.gain nm model norm1).predicted then
    (st.gain nm model norm1).actual / (st.gain nm model norm1).predicted else 0 at hratio
  by_contra hge
  -- residuals that are not smaller count as a reduction by minus one
  have hactual : (st.gain nm model norm1).actual = -1 := if_neg hge
  split at hratio
  · rename_i hpred
    rw [hactual] at hratio
    have hneg : (-1 : ℝ) / (st.gain nm model norm1).predicted < 0 :=
      div_neg_of_neg_of_pos (by norm_num) hpred
    linarith
  · norm_num at hratio

/-- Solving equations moves only to residuals of smaller norm. -/
theorem acceptsDescent_method {nm : Numerics ℝ} {c : Config ℝ} {budget : Nat}
    {p : Problem σ ℝ n n} {linearize : Linearize σ ℝ n} :
    (method nm c budget p linearize).AcceptsDescent (accepts nm) nm :=
  fun _ _ _ hacc => State.lt_of_acceptable hacc

/-- Every solve of a system of equations descends. -/
theorem descends_run {nm : Numerics ℝ} {c : Config ℝ} {patience : Nat} {p : Problem σ ℝ n n}
    {linearize : Linearize σ ℝ n} (hl : linearize.Recounts) (hpat : 0 < patience)
    (hc : c.fault? n = none) (x : Vec ℝ n) (s : σ) :
    (method nm c (c.budget patience n) p linearize).Descends (accepts nm) nm c.toSettings p x s
      (run nm c patience p linearize x s).1.toSummary := by
  have hpos : 0 < c.budget patience n := Settings.budget_pos (Config.settings_fault? hc) hpat
  simp only [run_eq hc, Method.run_eq]
  exact (steady_method hl).descends acceptsDescent_method (keepsBudget_method hl) hpos

end Equations

/-! ### All solvers -/

/-- In exact arithmetic every solver descends, whatever the problem is and whichever calls abort. -/
theorem solvers_descend (ε τ : ℝ) (z : Bool) (c : LeastSquares.Config ℝ) (d : Equations.Config ℝ)
    (x : Vec ℝ n) (s : σ) :
    let nm := Numerics.exact ε τ z
    (∀ h : n ≤ m, c.fault? n = none →
      (∀ p : JacobianProblem σ ℝ m n,
        (LeastSquares.method nm c (c.budget 100 n) h p.toProblem
          (LeastSquares.analytic nm h p)).Descends (LeastSquares.accepts nm h) nm c.toSettings
            p.toProblem x s (LeastSquares.minimize nm c p x s).1.toSummary) ∧
      (∀ p : Problem σ ℝ m n,
        (LeastSquares.method nm c (c.budget 200 n) h p
          (LeastSquares.numerical nm h c.toSettings p)).Descends (LeastSquares.accepts nm h) nm
            c.toSettings p x s (LeastSquares.minimizeNumerically nm c p x s).1.toSummary) ∧
      (∀ p : RowProblem σ ℝ m n,
        (LeastSquares.method nm c (c.budget 100 n) (Nat.le_refl n) p.toProblem
          (LeastSquares.rowwise nm p)).Descends (LeastSquares.accepts nm (Nat.le_refl n)) nm
            c.toSettings p.toProblem x s
            (LeastSquares.minimizeRowwise nm c p x s).1.toSummary)) ∧
    (d.fault? n = none →
      (∀ p : Problem σ ℝ n n,
        (Equations.method nm d (d.budget 200 n) p (Equations.numerical nm d p)).Descends
          (Equations.accepts nm) nm d.toSettings p x s
          (Equations.solve nm d p x s).1.toSummary) ∧
      (∀ p : JacobianProblem σ ℝ n n,
        (Equations.method nm d (d.budget 100 n) p.toProblem (Equations.analytic p)).Descends
          (Equations.accepts nm) nm d.toSettings p.toProblem x s
          (Equations.solveWithJacobian nm d p x s).1.toSummary)) := by
  intro nm
  refine ⟨fun h hc => ⟨?_, ?_, ?_⟩, fun hd => ⟨?_, ?_⟩⟩
  · intro p
    have hl := LeastSquares.recounts_analytic nm h p
    exact LeastSquares.descends_run id (fun h => LeastSquares.analytic nm h p) h hl (by decide) hc
      x s
  · intro p
    have hl := LeastSquares.recounts_numerical nm h c.toSettings p
    exact LeastSquares.descends_run id (fun h => LeastSquares.numerical nm h c.toSettings p) h hl
      (by decide) hc x s
  · intro p
    have hl := LeastSquares.recounts_rowwise nm p
    exact LeastSquares.descends_run (fun _ => Nat.le_refl n) (fun _ => LeastSquares.rowwise nm p) h
      hl (by decide) hc x s
  · intro p
    have hl := Equations.recounts_numerical nm d p
    rw [Equations.solve, dif_pos rfl]
    exact Equations.descends_run hl (by decide) hd x s
  · intro p
    have hl := Equations.recounts_analytic p
    rw [Equations.solveWithJacobian, dif_pos rfl]
    exact Equations.descends_run hl (by decide) hd x s

/-- The solvers descend from where both unknowns of `sumTwice` are one, though its Jacobian has not
full rank. -/
theorem solvers_descend_sumTwice :
    let nm := Numerics.exact 1 1 false
    let c := LeastSquares.Config.default nm
    let d := Equations.Config.default nm
    let x := Vec.const 2 (1 : ℝ)
    (LeastSquares.method nm c (c.budget 100 2) (Nat.le_refl 2) sumTwice.toProblem
        (LeastSquares.analytic nm (Nat.le_refl 2) sumTwice)).Descends
      (LeastSquares.accepts nm (Nat.le_refl 2)) nm c.toSettings sumTwice.toProblem x ()
      (LeastSquares.minimize nm c sumTwice x ()).1.toSummary ∧
    (LeastSquares.method nm c (c.budget 200 2) (Nat.le_refl 2) sumTwice.toProblem
        (LeastSquares.numerical nm (Nat.le_refl 2) c.toSettings sumTwice.toProblem)).Descends
      (LeastSquares.accepts nm (Nat.le_refl 2)) nm c.toSettings sumTwice.toProblem x ()
      (LeastSquares.minimizeNumerically nm c sumTwice.toProblem x ()).1.toSummary ∧
    (LeastSquares.method nm c (c.budget 100 2) (Nat.le_refl 2) sumTwiceByRows.toProblem
        (LeastSquares.rowwise nm sumTwiceByRows)).Descends
      (LeastSquares.accepts nm (Nat.le_refl 2)) nm c.toSettings sumTwiceByRows.toProblem x ()
      (LeastSquares.minimizeRowwise nm c sumTwiceByRows x ()).1.toSummary ∧
    (Equations.method nm d (d.budget 200 2) sumTwice.toProblem
        (Equations.numerical nm d sumTwice.toProblem)).Descends
      (Equations.accepts nm) nm d.toSettings sumTwice.toProblem x ()
      (Equations.solve nm d sumTwice.toProblem x ()).1.toSummary ∧
    (Equations.method nm d (d.budget 100 2) sumTwice.toProblem
        (Equations.analytic sumTwice)).Descends
      (Equations.accepts nm) nm d.toSettings sumTwice.toProblem x ()
      (Equations.solveWithJacobian nm d sumTwice x ()).1.toSummary := by
  intro nm c d x
  have hc : c.fault? 2 = none := LeastSquares.Config.fault?_default two_ne_zero zero_le_one
  have hd : d.fault? 2 = none := Equations.Config.fault?_default two_ne_zero
  obtain ⟨hls, heq⟩ := solvers_descend (σ := Unit) (m := 2) 1 1 false c d x ()
  obtain ⟨h₁, h₂, h₃⟩ := hls (Nat.le_refl 2) hc
  obtain ⟨h₄, h₅⟩ := heq hd
  exact ⟨h₁ sumTwice, h₂ sumTwice.toProblem, h₃ sumTwiceByRows, h₄ sumTwice.toProblem,
    h₅ sumTwice⟩

end NonlinearSolve

import Mathlib.Analysis.SpecialFunctions.Sqrt
import NonlinearSolve.Proofs.Course.Charges
import NonlinearSolve.Proofs.Drivers.Iterates
import NonlinearSolve.Proofs.Equations.Frame
import NonlinearSolve.Proofs.LeastSquares.Frame

/-! # Forward differences instead of a Jacobian

A solver with forward differences does the same as one that is given the matrix of these differences
for a Jacobian, whatever the arithmetic is: the differences leave the unknowns and the residuals
alone and overwrite all of the old matrix. Only the evaluations they take are charged
(`numerical_solvers_follow_analytic`). -/

namespace NonlinearSolve

variable {σ α : Type} [Scalar α] {m r n : Nat}

/-! ### Least squares -/

namespace LeastSquares

/-- The state with `cost` evaluations more for every Jacobian. -/
def State.charge (cost : Nat) (st : State α m r n) : State α m r n :=
  { st with toIterate := st.toIterate.charge cost }

section Parts

variable (cost : Nat) (nm : Numerics α) (c : Config α) (h : n ≤ r) (st : State α m r n)

/-- Adapting the scaling does not look at the counts. -/
theorem adapt_charge (norms : Vec α n) :
    (st.charge cost).adapt nm c h norms =
      ((st.adapt nm c h norms).1, (st.adapt nm c h norms).2.charge cost) := by
  -- the cosine of the calibrated state decides, and it does not depend on the counts
  have hcalibrate : (st.charge cost).toIterate.calibrate nm c.toSettings norms =
      (st.toIterate.calibrate nm c.toSettings norms).charge cost :=
    st.toIterate.calibrate_charge cost nm c.toSettings norms
  simp only [State.adapt, hcalibrate]
  change (if ({ st with toIterate := st.toIterate.calibrate nm c.toSettings norms } :
    State α m r n).gradientCosine h norms ≤ c.gtol then _ else _) = _
  split <;> rfl

/-- Resizing the trust region does not look at the counts. -/
theorem resize_charge (g : Gain α) (length norm1 : α) :
    (st.charge cost).resize g length norm1 = (st.resize g length norm1).charge cost := by
  rw [State.resize, State.resize]
  split
  · rfl
  · change (if st.damping == 0 || decide (0.75 ≤ g.ratio) then _ else _) = _
    split <;> rfl

/-- Deciding on a step does not look at the counts. -/
theorem after_charge (t : Proposal α n) (f : Vec α m) :
    (st.charge cost).after nm h t f = (st.after nm h t f).charge cost := by
  rw [State.after, State.after, resize_charge]
  change (if accepts nm h st t f then _ else _) = _
  split <;> rfl

/-- The counts and the budget decide about nothing but the end of patience. -/
theorem stop?_charge (budget budget' : Nat) (g : Gain α) :
    (st.charge cost).stop? nm c budget' g = st.stop? nm c budget g ∨
      st.stop? nm c budget g = some .lostPatience ∨
      (st.charge cost).stop? nm c budget' g = some .lostPatience := by
  have hfields : (st.charge cost).radius = st.radius ∧ (st.charge cost).length = st.length ∧
    (st.charge cost).cosine = st.cosine := ⟨rfl, rfl, rfl⟩
  obtain ⟨hradius, hlength, hcosine⟩ := hfields
  simp only [State.stop?, hradius, hlength, hcosine]
  -- the tests before the last one are the same
  repeat' split
  all_goals simp only [true_or, or_true]

/-- The verdicts are the same, unless one of them is that patience is lost. -/
theorem judge_charge (budget budget' : Nat) (t : Proposal α n) (f : Vec α m) :
    (st.charge cost).judge nm c budget' h t f =
        ((st.judge nm c budget h t f).1, (st.judge nm c budget h t f).2.charge cost) ∨
      (st.judge nm c budget h t f).1 = some .lostPatience ∨
      ((st.charge cost).judge nm c budget' h t f).1 = some .lostPatience := by
  have haccepts : accepts nm h (st.charge cost) t f = accepts nm h st t f := rfl
  have hgain : (st.charge cost).gain nm h t (nm.vecNorm f) = st.gain nm h t (nm.vecNorm f) := rfl
  rw [judge_eq, judge_eq, haccepts, hgain, after_charge]
  obtain hsame | hlost | hlost := stop?_charge cost nm c (st.after nm h t f) budget budget'
    (st.gain nm h t (nm.vecNorm f))
  · exact Or.inl (by rw [hsame])
  · by_cases hzero : (accepts nm h st t f && (nm.stopAtZero && nm.vecNorm f == 0)) = true
    · exact Or.inl (by rw [if_pos hzero, if_pos hzero])
    · exact Or.inr (Or.inl (by rw [if_neg hzero, hlost]))
  · by_cases hzero : (accepts nm h st t f && (nm.stopAtZero && nm.vecNorm f == 0)) = true
    · exact Or.inl (by rw [if_pos hzero, if_pos hzero])
    · exact Or.inr (Or.inr (by rw [if_neg hzero, hlost]))

end Parts

section Solves

variable (nm : Numerics α) {c : Config α} {p : Problem σ α m n} {f : Vec α n → Vec α m}
  (hp : p.IsPure f)

include hp

/-- Forward differences linearize in the same way as the Jacobian that they amount to. -/
theorem numerical_charge (h : n ≤ m) (c : Settings α) (st : State α m m n) (s : σ)
    (hst : st.residuals = f st.x) :
    ∃ b : Mat α m n,
      analytic nm h (p.differentiated (ForwardDifference.dense p nm c.epsfcn)) st s =
        (.ok (st.factorize nm h b).1, (st.factorize nm h b).2, s) ∧
      numerical nm h c p (st.charge n) s =
        (.ok (st.factorize nm h b).1, (st.factorize nm h b).2.charge n, s) := by
  obtain ⟨b, hjacobian, hdifference⟩ :=
    (ForwardDifference.dense_overwrites nm hp c.epsfcn).exists_jacobian hp st.x
  refine ⟨b, ?_, ?_⟩
  · rw [analytic, hjacobian]
  · have hsweep : ForwardDifference.dense p nm c.epsfcn (st.charge n).x (st.charge n).residuals
        (st.charge n).factor s = (.ok (), st.x, b, s) := by
      rw [show (st.charge n).residuals = f st.x from hst]
      exact hdifference _ s
    have hcharge := st.toIterate.charge_linearized n
    rw [numerical, hsweep]
    simp only [Prod.mk.injEq, and_true]
    refine ⟨rfl, ?_⟩
    change ({ (st.factorize nm h b).2 with toIterate := _ } : State α m m n) = _
    rw [State.charge]
    exact congrArg (fun it : Iterate α m n =>
      ({ (st.factorize nm h b).2 with toIterate := it } : State α m m n)) hcharge

/-- The method with forward differences does the same as the one with the Jacobian that they amount
to, and charges `n` evaluations more for it. -/
theorem chargesMore_method (h : n ≤ m) (budget budget' : Nat) :
    (method nm c budget h p
      (analytic nm h (p.differentiated (ForwardDifference.dense p nm c.epsfcn)))).ChargesMore
      (method nm c budget' h p (numerical nm h c.toSettings p)) (State.charge n) (accepts nm h)
      f where
  start it hit := by
    change State.ofIterate it = State.charge n (State.ofIterate it)
    rw [State.charge]
    exact congrArg State.ofIterate (it.charge_of_jacobians_eq_zero n hit).symm
  position _ := rfl
  accepts _ _ _ := rfl
  prepare st s hst := by
    change st.residuals = f st.x at hst
    change prepare nm c h p _ (st.charge n) s = ((prepare nm c h p _ st s).1,
      (prepare nm c h p _ st s).2.1.charge n, (prepare nm c h p _ st s).2.2)
    have hfresh : (st.charge n).fresh = st.fresh := rfl
    have hreport : (st.charge n).toIterate.reportIfDue c.toSettings p s =
      st.toIterate.reportIfDue c.toSettings p s := rfl
    simp only [prepare, hfresh, hreport]
    by_cases hst' : st.fresh = true
    · rw [if_pos hst', if_pos hst']
      rcases st.toIterate.reportIfDue c.toSettings p s with ⟨e | _, s'⟩
      · rfl
      · obtain ⟨b, hleft, hright⟩ := numerical_charge nm hp h c.toSettings st s' hst
        simp only [hleft, hright, adapt_charge]
    · rw [if_neg hst', if_neg hst']
  propose st := by
    change State.propose nm h (st.charge n) =
      ((st.propose nm h).1, (st.propose nm h).2.charge n)
    -- the subproblem is the same
    let sol := (st.subproblem h).solve nm st.damping
    have hiterate := st.toIterate.propose_charge n nm (sol.step.map fun p => -p)
    have hpropose : State.propose nm h (st.charge n) =
        (((st.toIterate.charge n).propose nm (sol.step.map fun p => -p)).1,
          { st with
            toIterate := ((st.toIterate.charge n).propose nm (sol.step.map fun p => -p)).2
            factor := st.factor.withLeading sol.r
            damping := sol.damping }) := rfl
    rw [hpropose, hiterate]
    rfl
  judge st t v := judge_charge n nm c h st budget budget' t v

/-- A minimization with forward differences follows the one with the Jacobian that they amount
to. -/
theorem minimizeNumerically_eq_charge (c : Config α) (x : Vec α n) (s : σ)
    (hpatient : (minimize nm c (p.differentiated (ForwardDifference.dense p nm c.epsfcn)) x
      s).1.termination ≠ .lostPatience)
    (hpatient' : (minimizeNumerically nm c p x s).1.termination ≠ .lostPatience) :
    let out := minimize nm c (p.differentiated (ForwardDifference.dense p nm c.epsfcn)) x s
    minimizeNumerically nm c p x s =
      ({ out.1 with evaluations := out.1.evaluations + n * out.1.jacobians }, out.2) := by
  rw [minimize] at hpatient ⊢
  rw [minimizeNumerically] at hpatient' ⊢
  by_cases h : n ≤ m
  · rcases hc : c.fault? n with _ | e
    · have hset := Config.settings_fault? hc
      have hl := recounts_analytic nm h (p.differentiated (ForwardDifference.dense p nm c.epsfcn))
      have hl' := recounts_numerical nm h c.toSettings p
      rw [run_eq h hc] at hpatient hpatient' ⊢
      rw [run_eq h hc]
      have hrun := (chargesMore_method nm (c := c) hp h (c.budget 100 n)
        (c.budget 200 n)).run_eq (c := c.toSettings) (steady_method hl) (fun _ => rfl)
        (keepsBudget_method hl) (keepsBudget_method hl') (Settings.budget_pos hset (by decide))
        (Settings.budget_pos hset (by decide)) hp hpatient hpatient'
      simp only [hrun]
      rfl
    · simp only [run, dif_pos h, hc]
      rfl
  · simp only [run, dif_neg h]
    rfl

end Solves

end LeastSquares

/-! ### Equations -/

namespace Equations

/-- The state with `cost` evaluations more for every Jacobian. -/
def State.charge (cost : Nat) (st : State α n) : State α n :=
  { st with toIterate := st.toIterate.charge cost }

section Parts

variable (cost : Nat) (nm : Numerics α) (c : Config α) (st : State α n)

/-- Factoring the Jacobian does not look at the counts. -/
theorem factorize_charge :
    (st.charge cost).factorize nm c = (st.factorize nm c).charge cost := by
  have hcalibrate := st.toIterate.calibrate_charge cost nm c.toSettings
    (QR.factor nm false st.q).colNorm
  simp only [State.factorize, State.charge, hcalibrate]
  rfl

/-- Deciding on a step of the equations does not look at the counts. -/
theorem after_charge (t : Proposal α n) (f : Vec α n) :
    (st.charge cost).after nm t f = (st.after nm t f).charge cost := by
  have hresize : ∀ (g : Gain α) (length : α),
      (st.charge cost).resize g length = (st.resize g length).charge cost := by
    intro g length
    rw [State.resize, State.resize]
    split <;> rfl
  have haccepts : accepts nm (st.charge cost) t f = accepts nm st t f := rfl
  simp only [State.after, hresize, haccepts]
  split <;> rfl

/-- Going on after a step does not look at the counts. -/
theorem continued_charge (t : Proposal α n) (f : Vec α n) :
    (st.charge cost).continued nm t f = (st.continued nm t f).charge cost := by
  rw [State.continued, State.continued, after_charge]
  change (if (st.after nm t f).failures = 2 then _ else _) = _
  split <;> rfl

/-- The counts and the budget decide about nothing but the end of patience. -/
theorem stop?_charge (budget budget' : Nat) (accepted : Bool) (length : α) :
    (st.charge cost).stop? nm c budget' accepted length = st.stop? nm c budget accepted length ∨
      st.stop? nm c budget accepted length = some .lostPatience ∨
      (st.charge cost).stop? nm c budget' accepted length = some .lostPatience := by
  have hfields : (st.charge cost).radius = st.radius ∧ (st.charge cost).length = st.length ∧
    (st.charge cost).residualNorm = st.residualNorm ∧
    (st.charge cost).slowSteps = st.slowSteps ∧
    (st.charge cost).slowJacobians = st.slowJacobians := ⟨rfl, rfl, rfl, rfl, rfl⟩
  obtain ⟨hradius, hlength, hnorm, hsteps, hjacobians⟩ := hfields
  simp only [State.stop?, hradius, hlength, hnorm, hsteps, hjacobians]
  -- the tests before the last one are the same
  repeat' split
  all_goals simp only [true_or, or_true]

/-- The verdicts are the same, unless one of them is that patience is lost. -/
theorem judge_charge (budget budget' : Nat) (t : Proposal α n) (f : Vec α n) :
    (st.charge cost).judge nm c budget' t f =
        ((st.judge nm c budget t f).1, (st.judge nm c budget t f).2.charge cost) ∨
      (st.judge nm c budget t f).1 = some .lostPatience ∨
      ((st.charge cost).judge nm c budget' t f).1 = some .lostPatience := by
  have haccepts : accepts nm (st.charge cost) t f = accepts nm st t f := rfl
  rw [judge_eq, judge_eq, haccepts, after_charge, continued_charge]
  obtain hsame | hlost | hlost := stop?_charge cost nm c (st.after nm t f) budget budget'
    (accepts nm st t f) t.length
  · left
    rw [hsame]
    rcases (st.after nm t f).stop? nm c budget (accepts nm st t f) t.length with _ | reason <;> rfl
  · exact Or.inr (Or.inl (by rw [hlost]))
  · exact Or.inr (Or.inr (by rw [hlost]))

end Parts

section Solves

variable (nm : Numerics α) (c : Config α) {p : Problem σ α n n} {f : Vec α n → Vec α n}

/-- Forward differences within the band of the settings. -/
def difference (p : Problem σ α m n) : Differencing σ α m n :=
  ForwardDifference.banded p nm (c.bandFor n).1 (c.bandFor n).2 c.epsfcn

/-- The number of evaluations that forward differences take. -/
def differenceCost (c : Config α) (n : Nat) : Nat :=
  min (ForwardDifference.bandWidth (c.bandFor n).1 (c.bandFor n).2) n

/-- Forward differences linearize in the same way as the Jacobian that they amount to. -/
theorem numerical_charge (hp : p.IsPure f) (st : State α n) (s : σ)
    (hst : st.residuals = f st.x) :
    ∃ st' : State α n, analytic (p.differentiated (difference nm c p)) st s = (.ok (), st', s) ∧
      numerical nm c p (st.charge (differenceCost c n)) s =
        (.ok (), st'.charge (differenceCost c n), s) := by
  obtain ⟨b, hjacobian, hdifference⟩ := (ForwardDifference.banded_overwrites nm hp (c.bandFor n).1
    (c.bandFor n).2 c.epsfcn).exists_jacobian hp st.x
  refine ⟨{ st with q := b, jacobians := st.jacobians + 1 }, ?_, ?_⟩
  · rw [analytic, difference, hjacobian]
  · have hsweep : ForwardDifference.banded p nm (c.bandFor n).1 (c.bandFor n).2 c.epsfcn
        (st.charge (differenceCost c n)).x (st.charge (differenceCost c n)).residuals
        (st.charge (differenceCost c n)).q s = (.ok (), st.x, b, s) := by
      rw [show (st.charge (differenceCost c n)).residuals = f st.x from hst]
      exact hdifference _ s
    have hcharge := st.toIterate.charge_linearized (differenceCost c n)
    simp only [numerical, hsweep, Prod.mk.injEq, true_and, and_true]
    exact congrArg (fun it : Iterate α n n =>
      ({ st with toIterate := it, q := b } : State α n)) hcharge

/-- The method with forward differences does the same as the one with the Jacobian that they amount
to, and charges more evaluations for it. -/
theorem chargesMore_method (hp : p.IsPure f) (budget budget' : Nat) :
    (method nm c budget p (analytic (p.differentiated (difference nm c p)))).ChargesMore
      (method nm c budget' p (numerical nm c p)) (State.charge (differenceCost c n)) (accepts nm)
      f where
  start it hit := by
    change State.ofIterate it = State.charge (differenceCost c n) (State.ofIterate it)
    exact congrArg State.ofIterate (it.charge_of_jacobians_eq_zero (differenceCost c n) hit).symm
  position _ := rfl
  accepts _ _ _ := rfl
  prepare st s hst := by
    change st.residuals = f st.x at hst
    change prepare nm c p _ (st.charge _) s = ((prepare nm c p _ st s).1,
      (prepare nm c p _ st s).2.1.charge _, (prepare nm c p _ st s).2.2)
    have hstale : (st.charge (differenceCost c n)).stale = st.stale := rfl
    have hreport : ∀ (st : State α n) (s : σ),
      (st.charge (differenceCost c n)).toIterate.reportIfDue c.toSettings p s =
        st.toIterate.reportIfDue c.toSettings p s := fun _ _ => rfl
    simp only [prepare, refresh, hstale]
    by_cases hst' : st.stale = true
    · obtain ⟨st', hleft, hright⟩ := numerical_charge nm c hp st s hst
      simp only [if_pos hst', hleft, hright, factorize_charge, hreport]
      rcases (st'.factorize nm c).toIterate.reportIfDue c.toSettings p s with ⟨e | _, s'⟩ <;> rfl
    · simp only [if_neg hst', hreport]
      rcases st.toIterate.reportIfDue c.toSettings p s with ⟨e | _, s'⟩ <;> rfl
  propose st := by
    have hiterate := st.toIterate.propose_charge (differenceCost c n) nm
    change State.propose nm (st.charge _) = ((st.propose nm).1, (st.propose nm).2.charge _)
    simp only [State.propose, State.charge, hiterate]
    rfl
  judge st t v := judge_charge _ nm c st budget budget' t v

/-- A solve with forward differences follows the one with the Jacobian that they amount to. -/
theorem solve_eq_charge (p : Problem σ α m n) {f : Vec α n → Vec α m} (hp : p.IsPure f)
    (x : Vec α n) (s : σ)
    (hpatient : (solveWithJacobian nm c (p.differentiated (difference nm c p)) x s).1.termination ≠
      .lostPatience)
    (hpatient' : (solve nm c p x s).1.termination ≠ .lostPatience) :
    let out := solveWithJacobian nm c (p.differentiated (difference nm c p)) x s
    solve nm c p x s =
      ({ out.1 with
          evaluations := out.1.evaluations + differenceCost c n * out.1.jacobians }, out.2) := by
  by_cases h : m = n
  · subst h
    rw [solveWithJacobian, dif_pos rfl] at hpatient ⊢
    rw [solve, dif_pos rfl] at hpatient' ⊢
    rcases hc : c.fault? m with _ | e
    · have hset := Config.settings_fault? hc
      have hl := recounts_analytic (p.differentiated (difference nm c p))
      have hl' := recounts_numerical nm c p
      simp only [run_eq hc] at hpatient hpatient' ⊢
      have hrun := (chargesMore_method nm c hp (c.budget 100 m)
        (c.budget 200 m)).run_eq (c := c.toSettings) (steady_method hl) (fun _ => rfl)
        (keepsBudget_method hl) (keepsBudget_method hl') (Settings.budget_pos hset (by decide))
        (Settings.budget_pos hset (by decide)) hp hpatient hpatient'
      simp only [hrun]
      rfl
    · simp only [run, hc]
      rfl
  · simp only [solve, solveWithJacobian, dif_neg h]
    rfl

end Solves

end Equations

/-! ### All solvers -/

/-- Whatever the arithmetic, the settings and the function are: a solver with forward differences
and one with the Jacobian that these amount to report the same, as long as neither loses its
patience. Only the evaluations for the differences are counted in addition. -/
theorem numerical_solvers_follow_analytic (nm : Numerics α) {p : Problem σ α m n}
    {f : Vec α n → Vec α m} (hp : p.IsPure f) (x : Vec α n) (s : σ) :
    (∀ c : LeastSquares.Config α,
      let out := LeastSquares.minimize nm c
        (p.differentiated (ForwardDifference.dense p nm c.epsfcn)) x s
      out.1.termination ≠ .lostPatience →
      (LeastSquares.minimizeNumerically nm c p x s).1.termination ≠ .lostPatience →
      LeastSquares.minimizeNumerically nm c p x s =
        ({ out.1 with evaluations := out.1.evaluations + n * out.1.jacobians }, out.2)) ∧
    (∀ c : Equations.Config α,
      let band := c.bandFor n
      let out := Equations.solveWithJacobian nm c
        (p.differentiated (ForwardDifference.banded p nm band.1 band.2 c.epsfcn)) x s
      out.1.termination ≠ .lostPatience →
      (Equations.solve nm c p x s).1.termination ≠ .lostPatience →
      Equations.solve nm c p x s =
        ({ out.1 with evaluations :=
            out.1.evaluations + min (band.1 + band.2 + 1) n * out.1.jacobians }, out.2)) := by
  refine ⟨?_, ?_⟩
  · intro c out hpatient hpatient'
    exact LeastSquares.minimizeNumerically_eq_charge nm hp c x s hpatient hpatient'
  · intro c band out hpatient hpatient'
    exact Equations.solve_eq_charge nm c p hp x s hpatient hpatient'

omit [Scalar α] in
/-- A minimization with the code of convergence has not lost its patience. -/
theorem LeastSquares.Report.patient_of_code {rep : LeastSquares.Report α m r n}
    (h : rep.code = 1) : rep.termination ≠ .lostPatience := by
  intro hlost
  rw [code, hlost] at h
  cases h

/-- A solve of equations with the code of convergence has not lost its patience. -/
theorem Equations.Report.patient_of_code {rep : Equations.Report α n} (h : rep.code = 1) :
    rep.termination ≠ .lostPatience := by
  intro hlost
  rw [code, hlost] at h
  cases h

/-- The equation `2 x = 1` in binary64. -/
def halfway : Problem Unit Float 1 1 where
  evaluate x s := (.ok (x.map fun y => 2 * y - 1), s)

/-- All four solvers find the solution of `2 x = 1` from one on. -/
theorem halfway_codes :
    let nm := Numerics.binary64
    let c := LeastSquares.Config.default nm
    let d := Equations.Config.default nm
    let band := d.bandFor 1
    let x := Vec.const 1 (1 : Float)
    (LeastSquares.minimize nm c
      (halfway.differentiated (ForwardDifference.dense halfway nm c.epsfcn)) x ()).1.code = 1 ∧
    (LeastSquares.minimizeNumerically nm c halfway x ()).1.code = 1 ∧
    (Equations.solveWithJacobian nm d (halfway.differentiated
      (ForwardDifference.banded halfway nm band.1 band.2 d.epsfcn)) x ()).1.code = 1 ∧
    (Equations.solve nm d halfway x ()).1.code = 1 := by
  decide +kernel

/-- The solvers with forward differences follow those with a Jacobian when they solve `2 x = 1`. -/
theorem numerical_solvers_follow_analytic_halfway :
    let nm := Numerics.binary64
    let c := LeastSquares.Config.default nm
    let d := Equations.Config.default nm
    let band := d.bandFor 1
    let x := Vec.const 1 (1 : Float)
    let out := LeastSquares.minimize nm c
      (halfway.differentiated (ForwardDifference.dense halfway nm c.epsfcn)) x ()
    let out' := Equations.solveWithJacobian nm d
      (halfway.differentiated (ForwardDifference.banded halfway nm band.1 band.2 d.epsfcn)) x ()
    LeastSquares.minimizeNumerically nm c halfway x () =
        ({ out.1 with evaluations := out.1.evaluations + 1 * out.1.jacobians }, out.2) ∧
      Equations.solve nm d halfway x () =
        ({ out'.1 with evaluations :=
            out'.1.evaluations + min (band.1 + band.2 + 1) 1 * out'.1.jacobians }, out'.2) := by
  intro nm c d band x out out'
  have hpure : halfway.IsPure fun x => x.map fun y => 2 * y - 1 := fun _ _ => rfl
  obtain ⟨hminimize, hnumerical, hjacobian, hsolve⟩ := halfway_codes
  obtain ⟨hleast, hequations⟩ := numerical_solvers_follow_analytic nm hpure x ()
  exact ⟨hleast c (LeastSquares.Report.patient_of_code hminimize)
      (LeastSquares.Report.patient_of_code hnumerical),
    hequations d (Equations.Report.patient_of_code hjacobian)
      (Equations.Report.patient_of_code hsolve)⟩

end NonlinearSolve

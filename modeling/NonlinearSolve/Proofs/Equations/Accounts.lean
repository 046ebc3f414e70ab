import NonlinearSolve.Proofs.Equations.Aborts
import NonlinearSolve.Proofs.ForwardDifference.Sweep

/-! # The accounts of a solve of equations

Both linearizations bill their calls (`Linearize.Metered`): one asks for the Jacobian, the other
makes evaluations for forward differences, of which a band saves some. Hence the hybrid method is
metered with each of them (`metered_method`), and its accounts are in order (`accounts_run`).
Rank-one updates of the Jacobian make no calls and are not counted. -/

namespace NonlinearSolve

namespace Equations

variable {σ α : Type} [Scalar α] {n : Nat}

/-! ### Linearizations in a round -/

/-- What becomes of the linearization in the preparation of a round, which makes one if the Jacobian
is stale. -/
def attempt (linearize : Linearize σ α n) (st : State α n) (s : σ) : Attempt :=
  if st.stale then .ofResult (linearize st s).1 else .omitted

/-- A linearization for a traced problem that makes at most `extra` evaluations, asks `answers`
times for the Jacobian, and bills these calls. -/
def Linearize.Metered (linearize : Linearize (Traced σ α n n) α n) (extra answers : Nat) : Prop :=
  ∀ (st : State α n) (s : σ) (tr : Array (Event α n n)),
    ∃ new : Array (Event α n n), (linearize st (s, tr)).2.2.2 = tr ++ new ∧
      new.size ≤ extra + answers ∧
      Billed extra answers new st.toIterate (linearize st (s, tr)).2.1.toIterate
        (.ofResult (linearize st (s, tr)).1)

/-- A linearization by the Jacobian asks for it once and makes no evaluation. -/
theorem metered_analytic (p : JacobianProblem σ α n n) :
    Linearize.Metered (analytic p.traced) 0 1 := by
  intro st s tr
  have hcall := Callback.traced_apply (.jacobian st.x) (p.jacobian st.x) s tr
  have hzero := evaluationCalls_single (.jacobian st.x : Call α n n)
    (Callback.abort? (p.jacobian st.x s).1)
  have hone := jacobianAnswers_single (.jacobian st.x : Call α n n)
    (Callback.abort? (p.jacobian st.x s).1)
  refine ⟨#[⟨.jacobian st.x, Callback.abort? (p.jacobian st.x s).1⟩], ?_⟩
  simp only [analytic, JacobianProblem.traced, hcall]
  rcases hjac : p.jacobian st.x s with ⟨e | jac, s'⟩
  all_goals rw [hjac] at hzero hone
  · exact ⟨rfl, le_rfl, .aborted e hzero.le hone.le rfl rfl⟩
  · exact ⟨rfl, le_rfl, .completed hzero.le hone (congrArg (st.evaluations + ·) hzero.symm) rfl⟩

/-- A linearization by forward differences makes at most an evaluation for every unknown and asks
for no Jacobian. -/
theorem metered_numerical (nm : Numerics α) (c : Config α) (p : Problem σ α n n) :
    Linearize.Metered (numerical nm c p.traced) n 0 := by
  intro st s tr
  set ml := (c.bandFor n).1 with hml
  set mu := (c.bandFor n).2 with hmu
  obtain ⟨new, htr, hcalls, hle, hall⟩ := ForwardDifference.evaluates_banded p nm ml mu c.epsfcn
    st.x st.residuals st.q s tr
  have hn : new.size ≤ n := hle.trans (Nat.min_le_right _ _)
  have hnone := jacobianAnswers_of_evaluations hcalls
  have hextra := hcalls.trans_le hn
  refine ⟨new, ?_⟩
  rw [numerical]
  simp only [← hml, ← hmu]
  rcases hsweep : ForwardDifference.banded p.traced nm ml mu c.epsfcn st.x st.residuals st.q (s, tr)
    with ⟨e | _, x, a, s'⟩
  · rw [hsweep] at htr
    exact ⟨htr, hn, .aborted e hextra hnone.le rfl rfl⟩
  · -- a sweep that is not aborted has all the evaluations that are billed
    rw [hsweep] at htr hall
    have hsize := hcalls.trans (hall rfl)
    exact ⟨htr, hn, .completed hextra hnone (congrArg (st.evaluations + ·) hsize.symm) rfl⟩

/-! ### The method -/

section Method

variable {nm : Numerics α} {c : Config α} {budget extra answers : Nat}

/-- Factoring a Jacobian does not count it. -/
@[simp] theorem jacobians_factorize (st : State α n) :
    (st.factorize nm c).jacobians = st.jacobians :=
  st.toIterate.jacobians_calibrate nm c.toSettings _

/-- Deciding on a step counts no Jacobian. -/
theorem jacobians_after (st : State α n) (t : Proposal α n) (f : Vec α n) :
    (st.after nm t f).jacobians = st.jacobians := by
  have hres : ∀ (g : Gain α) (length : α), (st.resize g length).jacobians = st.jacobians := by
    intro g length
    rw [State.resize]
    split <;> rfl
  rw [State.after]
  by_cases hacc : accepts nm st t f
  · simp only [if_pos hacc]
    exact hres _ _
  · simp only [if_neg hacc]
    exact hres _ _

variable {p : Problem σ α n n} {linearize : Linearize (Traced σ α n n) α n}

variable (nm c) in
/-- Computing the Jacobian anew is billed. -/
theorem Linearize.Metered.refresh (hl : linearize.Metered extra answers) (st : State α n) (s : σ)
    (tr : Array (Event α n n)) :
    ∃ new : Array (Event α n n),
      (Equations.refresh nm c linearize st (s, tr)).2.2.2 = tr ++ new ∧
        new.size ≤ extra + answers ∧
        Billed extra answers new st.toIterate
          (Equations.refresh nm c linearize st (s, tr)).2.1.toIterate
          (attempt linearize st (s, tr)) := by
  rw [Equations.refresh, attempt]
  by_cases hstale : st.stale
  · rw [if_pos hstale, if_pos hstale]
    obtain ⟨new, htr, hnew, hbill⟩ := hl st s tr
    refine ⟨new, ?_⟩
    rcases hlin : linearize st (s, tr) with ⟨e | _, st', s'⟩
    · rw [hlin] at htr hbill
      exact ⟨htr, hnew, hbill⟩
    · -- factoring the Jacobian leaves the counts alone
      rw [hlin] at htr hbill
      exact ⟨htr, hnew, hbill.congr rfl rfl (evaluations_factorize nm c st')
        (jacobians_factorize st')⟩
  · rw [if_neg hstale, if_neg hstale]
    exact ⟨#[], Array.append_empty.symm, Nat.zero_le _, .omitted rfl rfl rfl rfl⟩

/-- The preparation of a round bills its linearization. -/
theorem Linearize.Metered.prepare (hl : linearize.Metered extra answers) (st : State α n) (s : σ)
    (tr : Array (Event α n n)) :
    ∃ new : Array (Event α n n),
      (Equations.prepare nm c p.traced linearize st (s, tr)).2.2.2 = tr ++ new ∧
        new.size ≤ extra + answers + 1 ∧
        Billed extra answers new st.toIterate
          (Equations.prepare nm c p.traced linearize st (s, tr)).2.1.toIterate
          (attempt linearize st (s, tr)) := by
  obtain ⟨new, htr, hnew, hbill⟩ := hl.refresh nm c st s tr
  rw [prepare_state, Equations.prepare]
  rcases hrefresh : Equations.refresh nm c linearize st (s, tr) with ⟨e | _, st', s', tr'⟩
  all_goals rw [hrefresh] at htr hbill
  · exact ⟨new, htr, by omega, hbill⟩
  · -- a report that is due comes last
    obtain ⟨last, hsize, hcalls, hnone, hreport⟩ :=
      p.traced_reportIfDue c.toSettings st'.toIterate s' tr'
    obtain rfl : tr' = tr ++ new := htr
    refine ⟨new ++ last, ?_⟩
    rw [Array.size_append, ← Array.append_assoc]
    simp only [hreport]
    rcases st'.toIterate.reportIfDue c.toSettings p s' with ⟨e | _, s''⟩
    · exact ⟨rfl, by omega, hbill.report_after hcalls hnone⟩
    · exact ⟨rfl, by omega, hbill.report_after hcalls hnone⟩

/-- An aborted linearization ends the solve. -/
theorem prepare_of_aborted {p : Problem σ α n n} {linearize : Linearize σ α n} {st : State α n}
    {s : σ} {a : Abort} (ha : attempt linearize st s = .aborted a) :
    (prepare nm c p linearize st s).1 = some (.user a) := by
  rw [attempt] at ha
  rw [prepare, refresh]
  by_cases hstale : st.stale
  · rw [if_pos hstale] at ha ⊢
    rcases hlin : linearize st s with ⟨e | _, st', s'⟩
    all_goals
      rw [hlin] at ha
      cases ha
    rfl
  · rw [if_neg hstale] at ha
    cases ha

/-- The hybrid method is metered if its linearization is. -/
theorem metered_method (hl : linearize.Metered extra answers) :
    (method nm c budget p.traced linearize).Metered (attempt linearize) extra answers where
  propose _ := rfl
  judge st t f := by
    change (st.judge nm c budget t f).2.jacobians = _
    rw [toIterate_judge]
    exact jacobians_after st t f
  prepare st s tr := hl.prepare st s tr
  aborted _ _ _ ha := prepare_of_aborted ha

end Method

/-! ### Solves -/

section Run

variable (nm : Numerics α) (c : Config α) {patience : Nat} (p : Problem σ α n n) (x : Vec α n)
  (s : σ) {extra answers : Nat} {linearize : Linearize σ α n}
  {linearize' : Nat → Answer σ α n n → Linearize (Traced σ α n n) α n}
  {traced : Linearize (Traced σ α n n) α n}

/-- Tracing a problem does not change the report on it. -/
theorem run_traced (hl : linearize.Recounts) (hl' : linearize.Recorded linearize')
    (htraced : ∀ k, linearize' k p.traced.report = traced) (hpat : 0 < patience) :
    (run nm c patience p.traced traced x (s, #[])).1 = (run nm c patience p linearize x s).1 := by
  obtain ⟨calls, -, hanswer⟩ := stopsAtAbort_run nm c p x s hl hl' hpat
  have hsame := hanswer p.traced.report
  simp only [Problem.answering_traced, htraced] at hsame
  exact hsame

/-- The accounts of every solve of a traced problem are in order. -/
theorem accounts_run (hl : traced.Recounts) (hm : traced.Metered extra answers)
    (hpat : 0 < patience) :
    Accounts (course nm c patience p.traced traced x (s, #[]))
      (Moment.attempt (attempt traced)) (c.budget patience n) extra answers
      (run nm c patience p.traced traced x (s, #[])).1.toSummary
      (run nm c patience p.traced traced x (s, #[])).2.2 := by
  rcases hc : c.fault? n with _ | e
  · have hbudget : 1 < c.budget patience n :=
      Nat.lt_of_le_of_lt (Config.pos_of_fault? hc)
        (Settings.lt_budget (Config.settings_fault? hc) hpat)
    rw [course_eq hc, run_eq hc]
    exact (metered_method hm).accounts (keepsBudget_method hl) (fun _ => rfl) hbudget
  · simp only [course, run, hc]
    exact .of_rejected rfl rfl _ _ _ rfl rfl rfl

end Run

end Equations

end NonlinearSolve

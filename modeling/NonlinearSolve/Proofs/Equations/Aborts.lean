import NonlinearSolve.Proofs.Course.Aborts
import NonlinearSolve.Proofs.Equations.Frame

/-! # The calls of a solve of equations

Both linearizations are recorded, and so is the hybrid method with any of them (`records_method`).
Hence a solve stops at the first call that aborts (`stopsAtAbort_run`). -/

namespace NonlinearSolve

namespace Equations

variable {σ α : Type} [Scalar α] {n : Nat}

/-- A linearization that is recorded when it is used for the traced problem. -/
def Linearize.Recorded (linearize : Linearize σ α n)
    (linearize' : Nat → Answer σ α n n → Linearize (Traced σ α n n) α n) : Prop :=
  ∀ st, NonlinearSolve.Recorded Callback.abort? (linearize st) fun k answer =>
    linearize' k answer st

section Linearizations

/-- Linearizing with the Jacobian of the problem makes its calls in order and stops at an abort. -/
theorem recorded_analytic (p : JacobianProblem σ α n n) :
    Linearize.Recorded (analytic p) fun k answer => analytic (p.answering k answer) := by
  intro st s
  have hcall := p.makesCalls_jacobian st.x s
  rcases hjac : p.jacobian st.x s with ⟨e | jac, s'⟩
  all_goals
    simp only [hjac] at hcall
    simp only [analytic, hjac]
    refine hcall.map ?_
    intro k answer tr tr' h
    simp only [h]

/-- Linearizing by differences makes its calls in order and stops at an abort. -/
theorem recorded_numerical (nm : Numerics α) (c : Config α) (p : Problem σ α n n) :
    Linearize.Recorded (numerical nm c p) fun k answer =>
      numerical nm c (p.answering k answer) := by
  intro st s
  have hcalls := ForwardDifference.banded_recorded p nm (c.bandFor n).1 (c.bandFor n).2 c.epsfcn
    st.x st.residuals st.q s
  rcases hsweep : ForwardDifference.banded p nm (c.bandFor n).1 (c.bandFor n).2 c.epsfcn st.x
    st.residuals st.q s with ⟨e | _, x, a, s'⟩
  all_goals
    simp only [hsweep] at hcalls
    simp only [numerical, hsweep]
    refine hcalls.map ?_
    intro k answer tr tr' h
    simp only [h]

end Linearizations

/-! ### The method -/

section Method

variable {nm : Numerics α} {c : Config α} {budget : Nat}

variable (nm c budget) in
/-- The tests after a step never end with an abort. -/
theorem verdictAbort_stop? (st : State α n) (accepted : Bool) (length : α) :
    verdictAbort (st.stop? nm c budget accepted length) = none := by
  rw [State.stop?]
  repeat' split
  all_goals rfl

/-- A verdict never ends a solve as an abort does. -/
theorem verdictAbort_judge (st : State α n) (t : Proposal α n) (f : Vec α n) :
    verdictAbort (st.judge nm c budget t f).1 = none := by
  have hstop := verdictAbort_stop? nm c budget (st.after nm t f) (accepts nm st t f) t.length
  rw [judge_eq]
  rcases hreason : (st.after nm t f).stop? nm c budget (accepts nm st t f) t.length with _ | reason
  · rfl
  · rw [hreason] at hstop
    exact hstop

variable {p : Problem σ α n n} {linearize : Linearize σ α n}
  {linearize' : Nat → Answer σ α n n → Linearize (Traced σ α n n) α n}

variable (nm c) in
/-- Computing the Jacobian anew is recorded. -/
theorem Linearize.Recorded.refresh (hl : linearize.Recorded linearize') (st : State α n) :
    NonlinearSolve.Recorded Callback.abort? (Equations.refresh nm c linearize st)
      fun k answer => Equations.refresh nm c (linearize' k answer) st := by
  intro s
  by_cases hstale : st.stale
  · have hcalls := hl st s
    rcases hlin : linearize st s with ⟨e | _, st', s'⟩
    all_goals
      simp only [hlin] at hcalls
      simp only [Equations.refresh, if_pos hstale, hlin]
      refine hcalls.map ?_
      intro k answer tr tr' h
      simp only [h]
  · simp only [Equations.refresh, if_neg hstale]
    refine MakesCalls.silent ?_
    intro k answer tr
    rfl

/-- The preparation of a round is recorded. -/
theorem Linearize.Recorded.prepare (hl : linearize.Recorded linearize') (st : State α n) :
    NonlinearSolve.Recorded verdictAbort (Equations.prepare nm c p linearize st)
      fun k answer => Equations.prepare nm c (p.answering k answer) (linearize' k answer) st := by
  intro s
  have hcalls₁ := hl.refresh nm c st s
  rcases hrefresh : Equations.refresh nm c linearize st s with ⟨e | _, st₁, s₁⟩
  · simp only [hrefresh] at hcalls₁
    simp only [Equations.prepare, hrefresh]
    refine hcalls₁.map ?_
    intro k answer tr tr' h
    simp only [h]
  · -- a report that is due comes after the Jacobian
    have hcalls₂ := recorded_reportIfDue c.toSettings p st₁.toIterate s₁
    rcases hreport : st₁.toIterate.reportIfDue c.toSettings p s₁ with ⟨e | _, s₂⟩
    all_goals
      simp only [hrefresh] at hcalls₁
      simp only [hreport] at hcalls₂
      simp only [Equations.prepare, hrefresh, hreport]
      refine hcalls₁.append hcalls₂ ?_
      intro k answer tr tr₁ tr₂ h₁ h₂
      simp only [h₁, h₂]

/-- The hybrid method is recorded. -/
theorem records_method (hl : linearize.Recorded linearize') :
    (method nm c budget p linearize).Records
      fun k answer => method nm c budget (p.answering k answer) (linearize' k answer) where
  start _ _ := rfl
  iterate _ _ := rfl
  propose _ _ := rfl
  judge _ _ := rfl
  judge_abort := verdictAbort_judge
  prepare st := hl.prepare st

end Method

/-! ### Solves -/

section Run

variable (nm : Numerics α) (c : Config α) (patience : Nat) (p : Problem σ α n n)
  (linearize : Linearize σ α n) (x : Vec α n) (s : σ)

/-- The moments of a solve. One whose settings are rejected has ended at once. -/
def course : Nat → Moment σ α n (State α n) :=
  match c.fault? n with
  | some e => fun _ =>
    { stage := .ended (.invalidInput e)
      state := .ofIterate (.start c.toSettings x)
      world := s
      base := x }
  | none =>
    (method nm c (c.budget patience n) p linearize).course (accepts nm) nm c.toSettings p x s

variable {nm c patience p linearize x s} in
/-- With proper settings, the moments of a solve are those of the method. -/
theorem course_eq (hc : c.fault? n = none) :
    course nm c patience p linearize x s =
      (method nm c (c.budget patience n) p linearize).course (accepts nm) nm c.toSettings p x
        s := by
  rw [course, hc]

variable {patience linearize} {linearize' : Nat → Answer σ α n n → Linearize (Traced σ α n n) α n}

/-- From some moment on a solve has ended, and that is the moment it reports on. -/
theorem exists_course_report (hl : linearize.Recounts) (hpat : 0 < patience) :
    ∃ k₀, ∀ k, k₀ ≤ k →
      (course nm c patience p linearize x s k).stage =
          .ended (run nm c patience p linearize x s).1.termination ∧
        (course nm c patience p linearize x s k).state.report
            (run nm c patience p linearize x s).1.termination =
          (run nm c patience p linearize x s).1 := by
  rcases hc : c.fault? n with _ | e
  · have hpos : 0 < c.budget patience n := Settings.budget_pos (Config.settings_fault? hc) hpat
    have hbudget : (method nm c (c.budget patience n) p linearize).KeepsBudget
        (c.budget patience n) := keepsBudget_method hl
    obtain ⟨k₀, b, hk₀⟩ := hbudget.exists_course_ended (accepts nm) p hpos (fun _ => rfl) nm
      c.toSettings x s
    refine ⟨k₀, ?_⟩
    intro k hk
    rw [course_eq hc, run_eq hc, Method.course_of_ended hk hk₀]
    simp only [Method.run_eq]
    exact ⟨rfl, rfl⟩
  · refine ⟨0, ?_⟩
    intro k _
    simp only [course, run, hc]
    exact ⟨rfl, rfl⟩

/-- A solve stops at the first call that aborts, and the answer to the last report has no
effect. -/
theorem stopsAtAbort_run (hl : linearize.Recounts) (hl' : linearize.Recorded linearize')
    (hpat : 0 < patience) :
    ∃ calls : Array (Event α n n),
      StopsAtAbort (course nm c patience p linearize x s) c.reportEvery
        (run nm c patience p linearize x s).1.toSummary
        (run nm c patience p linearize x s).1.code calls
        (run nm c patience (p.answering calls.size p.traced.report)
          (linearize' calls.size p.traced.report) x (s, #[])).2.2 ∧
      ∀ answer,
        (run nm c patience (p.answering calls.size answer) (linearize' calls.size answer) x
          (s, #[])).1 =
        (run nm c patience p linearize x s).1 := by
  rcases hc : c.fault? n with _ | e
  · have hpos : 0 < c.budget patience n := Settings.budget_pos (Config.settings_fault? hc) hpat
    have hsteady : (method nm c (c.budget patience n) p linearize).Steady (accepts nm) nm :=
      steady_method hl
    obtain ⟨calls, hstop, hanswer⟩ := (records_method hl').stopsAtAbort hsteady
      (keepsBudget_method hl) hpos Termination.equationsCode (fun _ => rfl) c.toSettings p x s
    refine ⟨calls, ?_, ?_⟩
    · simp only [course, run_eq hc, hc, Method.run_eq] at hstop ⊢
      exact hstop
    · intro answer
      simp only [run_eq hc, hanswer]
      rw [Method.run_eq]
  · refine ⟨#[], ?_, ?_⟩
    · simp only [course, run, hc]
      exact .of_rejected rfl rfl rfl
    · intro answer
      simp only [run, hc]

end Run

end Equations

end NonlinearSolve

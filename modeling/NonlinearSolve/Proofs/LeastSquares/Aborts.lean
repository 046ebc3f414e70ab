import NonlinearSolve.Proofs.Course.Aborts
import NonlinearSolve.Proofs.LeastSquares.Frame

/-! # The calls of a least squares solve

The three linearizations are recorded, and so is the Levenberg-Marquardt method with any of them
(`records_method`). Hence a solve stops at the first call that aborts (`stopsAtAbort_run`). -/

namespace NonlinearSolve

namespace LeastSquares

variable {σ α : Type} [Scalar α] {m r n : Nat}

/-- A linearization that is recorded when it is used for the traced problem. -/
def Linearize.Recorded (linearize : Linearize σ α m r n)
    (linearize' : Nat → Answer σ α m n → Linearize (Traced σ α m n) α m r n) : Prop :=
  ∀ st, NonlinearSolve.Recorded Callback.abort? (linearize st) fun k answer =>
    linearize' k answer st

section Linearizations

variable (nm : Numerics α)

/-- Linearizing with the Jacobian of the problem makes its calls in order and stops at an abort. -/
theorem recorded_analytic (h : n ≤ m) (p : JacobianProblem σ α m n) :
    Linearize.Recorded (analytic nm h p) fun k answer => analytic nm h (p.answering k answer) := by
  intro st s
  have hcall := p.makesCalls_jacobian st.x s
  rcases hjac : p.jacobian st.x s with ⟨e | jac, s'⟩
  all_goals
    simp only [hjac] at hcall
    simp only [analytic, hjac]
    refine hcall.map ?_
    intro k answer tr tr' h
    simp only [h]

/-- Linearizing by differences makes its calls in order and stops at an abort. -/
theorem recorded_numerical (h : n ≤ m) (c : Settings α) (p : Problem σ α m n) :
    Linearize.Recorded (numerical nm h c p)
      fun k answer => numerical nm h c (p.answering k answer) := by
  intro st s
  have hcalls := ForwardDifference.dense_recorded p nm c.epsfcn st.x st.residuals st.factor s
  rcases hsweep : ForwardDifference.dense p nm c.epsfcn st.x st.residuals st.factor s with
    ⟨e | _, x, a, s'⟩
  all_goals
    simp only [hsweep] at hcalls
    simp only [numerical, hsweep]
    refine hcalls.map ?_
    intro k answer tr tr' h
    simp only [h]

/-- The calls for the rows of the Jacobian are recorded. -/
theorem foldRows_recorded (p : RowProblem σ α m n) (x : Vec α n) (residuals : Vec α m)
    (rows : List (Fin m)) (r : Mat α n n) (b : Vec α n) :
    RecordedLoop (foldRows p x residuals rows r b)
      fun k answer => foldRows (p.answering k answer) x residuals rows r b := by
  induction rows generalizing r b with
  | nil =>
    intro s
    refine MakesCalls.silent ?_
    intro k answer tr
    rfl
  | cons i rows ih =>
    intro s
    have hcall := p.makesCalls_jacobianRow x i s
    rcases hrow : p.jacobianRow x i s with ⟨e | w, s'⟩
    all_goals
      simp only [hrow] at hcall
      simp only [foldRows, hrow]
    · refine hcall.map ?_
      intro k answer tr tr' h
      simp only [h]
    · refine hcall.append (ih _ _ s') ?_
      intro k answer tr tr₁ tr₂ h₁ h₂
      simp only [h₁, h₂]

/-- Linearizing row by row makes its calls in order and stops at an abort. -/
theorem recorded_rowwise (p : RowProblem σ α m n) :
    Linearize.Recorded (rowwise nm p) fun k answer => rowwise nm (p.answering k answer) := by
  intro st s
  have hcalls := foldRows_recorded p st.x st.residuals (List.finRange m) (Mat.zero n n)
    (Vec.zero n) s
  rcases hfold : foldRows p st.x st.residuals (List.finRange m) (Mat.zero n n) (Vec.zero n) s with
    ⟨e | _, r, b, s'⟩
  all_goals
    simp only [hfold] at hcalls
    simp only [rowwise, hfold]
    refine hcalls.map ?_
    intro k answer tr tr' h
    simp only [h]

end Linearizations

/-! ### The method -/

section Method

variable {nm : Numerics α} {c : Config α} {budget : Nat} {h : n ≤ r}

/-- The start of an iteration never ends a solve as an abort does. -/
theorem verdictAbort_adapt (st : State α m r n) (norms : Vec α n) :
    verdictAbort (st.adapt nm c h norms).1 = none := by
  rw [State.adapt]
  split <;> rfl

/-- The tests after a step never end with an abort. -/
theorem verdictAbort_stop? (st : State α m r n) (g : Gain α) :
    verdictAbort (st.stop? nm c budget g) = none := by
  rw [State.stop?]
  repeat' split
  all_goals rfl

/-- A verdict never ends a solve as an abort does. -/
theorem verdictAbort_judge (st : State α m r n) (t : Proposal α n) (f : Vec α m) :
    verdictAbort (st.judge nm c budget h t f).1 = none := by
  rw [judge_eq]
  split
  · rfl
  · exact verdictAbort_stop? _ _

variable {p : Problem σ α m n} {linearize : Linearize σ α m r n}
  {linearize' : Nat → Answer σ α m n → Linearize (Traced σ α m n) α m r n}

/-- The preparation of a round is recorded. -/
theorem Linearize.Recorded.prepare (hl : linearize.Recorded linearize') (st : State α m r n) :
    NonlinearSolve.Recorded verdictAbort (LeastSquares.prepare nm c h p linearize st)
      fun k answer =>
        LeastSquares.prepare nm c h (p.answering k answer) (linearize' k answer) st := by
  intro s
  by_cases hfresh : st.fresh
  · have hcalls₁ := recorded_reportIfDue c.toSettings p st.toIterate s
    rcases hreport : st.toIterate.reportIfDue c.toSettings p s with ⟨e | _, s₁⟩
    · simp only [hreport] at hcalls₁
      simp only [LeastSquares.prepare, if_pos hfresh, hreport]
      refine hcalls₁.map ?_
      intro k answer tr tr' h
      simp only [h]
    · -- the Jacobian comes after a report that is due
      have hcalls₂ := hl st s₁
      rcases hlin : linearize st s₁ with ⟨e | norms, st₂, s₂⟩
      all_goals
        simp only [hreport] at hcalls₁
        simp only [hlin] at hcalls₂
        simp only [LeastSquares.prepare, if_pos hfresh, hreport, hlin, verdictAbort_adapt]
        refine hcalls₁.append hcalls₂ ?_
        intro k answer tr tr₁ tr₂ h₁ h₂
        simp only [h₁, h₂]
  · simp only [LeastSquares.prepare, if_neg hfresh]
    refine MakesCalls.silent ?_
    intro k answer tr
    rfl

/-- The Levenberg-Marquardt method is recorded. -/
theorem records_method (hl : linearize.Recorded linearize') :
    (method nm c budget h p linearize).Records
      fun k answer => method nm c budget h (p.answering k answer) (linearize' k answer) where
  start _ _ := rfl
  iterate _ _ := rfl
  propose _ _ := rfl
  judge _ _ := rfl
  judge_abort := verdictAbort_judge
  prepare st := hl.prepare st

end Method

/-! ### Solves -/

section Run

variable (nm : Numerics α) (c : Config α) (patience : Nat) (p : Problem σ α m n)
  (rows : n ≤ m → n ≤ r) (linearize : n ≤ m → Linearize σ α m r n) (x : Vec α n) (s : σ)

/-- The only moment of a solve whose input is rejected. -/
def rejected (e : InputError) : Moment σ α n (State α m r n) where
  stage := .ended (.invalidInput e)
  state := .ofIterate (.start c.toSettings x)
  world := s
  base := x

/-- The moments of a solve. -/
def course : Nat → Moment σ α n (State α m r n) :=
  if h : n ≤ m then
    match c.fault? n with
    | some e => fun _ => rejected c x s e
    | none =>
      (method nm c (c.budget patience n) (rows h) p (linearize h)).course (accepts nm (rows h)) nm
        c.toSettings p x s
  else fun _ => rejected c x s (.notEnoughResiduals m n)

variable {nm c patience p rows linearize x s} in
/-- With proper input, the moments of a solve are those of the method. -/
theorem course_eq (h : n ≤ m) (hc : c.fault? n = none) :
    course nm c patience p rows linearize x s =
      (method nm c (c.budget patience n) (rows h) p (linearize h)).course (accepts nm (rows h)) nm
        c.toSettings p x s := by
  rw [course, dif_pos h, hc]

variable {nm c patience p rows linearize x s} in
/-- A step is proposed in the moment after a prepared one. -/
theorem course_succ_of_prepared (h : n ≤ m) (hc : c.fault? n = none) {k : Nat}
    {mo : Moment σ α n (State α m r n)} (hmo : course nm c patience p rows linearize x s k = mo)
    (hstage : mo.stage = .prepared) :
    course nm c patience p rows linearize x s (k + 1) =
      ⟨.proposed (mo.state.propose nm (rows h)).1, (mo.state.propose nm (rows h)).2, mo.world,
        mo.base⟩ := by
  rw [course_eq h hc] at hmo ⊢
  rw [Method.course_succ, hmo, Method.next_of_prepared hstage]
  rfl

variable {patience linearize}
  {linearize' : n ≤ m → Nat → Answer σ α m n → Linearize (Traced σ α m n) α m r n}

/-- From some moment on a solve has ended, and that is the moment it reports on. -/
theorem exists_course_report (hl : ∀ h, (linearize h).Recounts) (hpat : 0 < patience) :
    ∃ k₀, ∀ k, k₀ ≤ k →
      (course nm c patience p rows linearize x s k).stage =
          .ended (run nm c patience p rows linearize x s).1.termination ∧
        (course nm c patience p rows linearize x s k).state.report
            (run nm c patience p rows linearize x s).1.termination =
          (run nm c patience p rows linearize x s).1 := by
  by_cases h : n ≤ m
  · rcases hc : c.fault? n with _ | e
    · have hpos : 0 < c.budget patience n := Settings.budget_pos (Config.settings_fault? hc) hpat
      have hbudget : (method nm c (c.budget patience n) (rows h) p (linearize h)).KeepsBudget
          (c.budget patience n) := keepsBudget_method (hl h)
      obtain ⟨k₀, b, hk₀⟩ := hbudget.exists_course_ended (accepts nm (rows h)) p hpos (fun _ => rfl)
        nm c.toSettings x s
      refine ⟨k₀, ?_⟩
      intro k hk
      rw [course_eq h hc, run_eq h hc, Method.course_of_ended hk hk₀]
      simp only [Method.run_eq]
      exact ⟨rfl, rfl⟩
    · refine ⟨0, ?_⟩
      intro k _
      simp only [course, run, dif_pos h, hc]
      exact ⟨rfl, rfl⟩
  · refine ⟨0, ?_⟩
    intro k _
    simp only [course, run, dif_neg h]
    exact ⟨rfl, rfl⟩

/-- A solve stops at the first call that aborts, and the answer to the last report has no
effect. -/
theorem stopsAtAbort_run (hl : ∀ h, (linearize h).Recounts)
    (hl' : ∀ h, (linearize h).Recorded (linearize' h)) (hpat : 0 < patience) :
    ∃ calls : Array (Event α m n),
      StopsAtAbort (course nm c patience p rows linearize x s) c.reportEvery
        (run nm c patience p rows linearize x s).1.toSummary
        (run nm c patience p rows linearize x s).1.code calls
        (run nm c patience (p.answering calls.size p.traced.report) rows
          (fun h => linearize' h calls.size p.traced.report) x (s, #[])).2.2 ∧
      ∀ answer,
        (run nm c patience (p.answering calls.size answer) rows
          (fun h => linearize' h calls.size answer) x (s, #[])).1 =
        (run nm c patience p rows linearize x s).1 := by
  by_cases h : n ≤ m
  · rcases hc : c.fault? n with _ | e
    · -- the only case in which there are calls at all
      have hpos : 0 < c.budget patience n := Settings.budget_pos (Config.settings_fault? hc) hpat
      have hsteady : (method nm c (c.budget patience n) (rows h) p (linearize h)).Steady
          (accepts nm (rows h)) nm := steady_method (hl h)
      obtain ⟨calls, hstop, hanswer⟩ := (records_method (hl' h)).stopsAtAbort hsteady
        (keepsBudget_method (hl h)) hpos Termination.leastSquaresCode (fun _ => rfl) c.toSettings p
        x s
      refine ⟨calls, ?_, ?_⟩
      · simp only [course, dif_pos h, run_eq h hc, hc, Method.run_eq] at hstop ⊢
        exact hstop
      · intro answer
        simp only [run_eq h hc, hanswer]
        rw [Method.run_eq]
    · refine ⟨#[], ?_, ?_⟩
      · simp only [course, run, dif_pos h, hc]
        exact .of_rejected rfl rfl rfl
      · intro answer
        simp only [run, dif_pos h, hc]
  · refine ⟨#[], ?_, ?_⟩
    · simp only [course, run, dif_neg h]
      exact .of_rejected rfl rfl rfl
    · intro answer
      simp only [run, dif_neg h]

end Run

end LeastSquares

end NonlinearSolve

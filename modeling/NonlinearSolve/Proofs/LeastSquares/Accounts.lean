import NonlinearSolve.Proofs.LeastSquares.Aborts

/-! # The accounts of a least squares solve

Each of the three linearizations bills its calls (`Linearize.Metered`): forward differences make one
evaluation for every unknown, the others make none but ask for the Jacobian once or row by row.
Hence the Levenberg-Marquardt method is metered with each of them (`metered_method`), and its
accounts are in order (`accounts_run`). -/

namespace NonlinearSolve

namespace LeastSquares

variable {σ α : Type} [Scalar α] {m r n : Nat}

/-! ### Linearizations in a round -/

/-- The state of the callbacks with which the preparation of a round linearizes, if it does: the
iterate is new, and no report that is due aborts. -/
def linearizesFrom? (c : Settings α) (p : Problem σ α m n) (st : State α m r n) (s : σ) :
    Option σ :=
  if st.fresh then
    match st.toIterate.reportIfDue c p s with
    | (.error _, _) => none
    | (.ok _, s) => some s
  else none

omit [Scalar α] in
/-- A moment linearizes exactly if its iterate is new and the report, if one is due, does not abort.
-/
theorem linearizesFrom?_eq_some {c : Settings α} {p : Problem σ α m n} {st : State α m r n}
    {s s' : σ} : linearizesFrom? c p st s = some s' ↔
      st.fresh = true ∧ st.toIterate.reportIfDue c p s = (.ok (), s') := by
  rw [linearizesFrom?]
  by_cases hfresh : st.fresh = true
  · rcases st.toIterate.reportIfDue c p s with ⟨e | _, s₁⟩ <;> simp [hfresh]
  · simp [hfresh]

/-- A preparation that linearizes ends with the abort of the linearization or adapts to it. -/
theorem prepare_of_linearizes {nm : Numerics α} {c : Config α} {h : n ≤ r} {p : Problem σ α m n}
    {linearize : Linearize σ α m r n} {st : State α m r n} {s s' : σ}
    (hs : linearizesFrom? c.toSettings p st s = some s') :
    prepare nm c h p linearize st s =
      match linearize st s' with
      | (.error e, st, s) => (some (.user e), st, s)
      | (.ok norms, st, s) =>
        ((st.adapt nm c h norms).1, (st.adapt nm c h norms).2, s) := by
  obtain ⟨hfresh, hreport⟩ := linearizesFrom?_eq_some.1 hs
  rcases hlin : linearize st s' with ⟨e | norms, st', s''⟩ <;>
    simp only [prepare, if_pos hfresh, hreport, hlin]

/-- What becomes of the linearization in the preparation of a round. -/
def attempt (c : Settings α) (p : Problem σ α m n) (linearize : Linearize σ α m r n)
    (st : State α m r n) (s : σ) : Attempt :=
  match linearizesFrom? c p st s with
  | none => .omitted
  | some s => .ofResult (linearize st s).1

/-- A linearization for a traced problem that makes at most `extra` evaluations, asks `answers`
times for the Jacobian or a row of it, and bills these calls. -/
def Linearize.Metered (linearize : Linearize (Traced σ α m n) α m r n) (extra answers : Nat) :
    Prop :=
  ∀ (st : State α m r n) (s : σ) (tr : Array (Event α m n)),
    ∃ new : Array (Event α m n), (linearize st (s, tr)).2.2.2 = tr ++ new ∧
      new.size ≤ extra + answers ∧
      Billed extra answers new st.toIterate (linearize st (s, tr)).2.1.toIterate
        (.ofResult (linearize st (s, tr)).1)

section Linearizations

variable (nm : Numerics α)

/-- A linearization by the Jacobian asks for it once and makes no evaluation. -/
theorem metered_analytic (h : n ≤ m) (p : JacobianProblem σ α m n) :
    Linearize.Metered (analytic nm h p.traced) 0 1 := by
  intro st s tr
  have hcall := Callback.traced_apply (.jacobian st.x) (p.jacobian st.x) s tr
  have hzero := evaluationCalls_single (.jacobian st.x : Call α m n)
    (Callback.abort? (p.jacobian st.x s).1)
  have hone := jacobianAnswers_single (.jacobian st.x : Call α m n)
    (Callback.abort? (p.jacobian st.x s).1)
  refine ⟨#[⟨.jacobian st.x, Callback.abort? (p.jacobian st.x s).1⟩], ?_⟩
  simp only [analytic, JacobianProblem.traced, hcall]
  rcases hjac : p.jacobian st.x s with ⟨e | jac, s'⟩
  all_goals rw [hjac] at hzero hone
  · exact ⟨rfl, le_rfl, .aborted e hzero.le hone.le rfl rfl⟩
  · exact ⟨rfl, le_rfl, .completed hzero.le hone (congrArg (st.evaluations + ·) hzero.symm) rfl⟩

/-- A linearization by forward differences makes an evaluation for every unknown and asks for no
Jacobian. -/
theorem metered_numerical (h : n ≤ m) (c : Settings α) (p : Problem σ α m n) :
    Linearize.Metered (numerical nm h c p.traced) n 0 := by
  intro st s tr
  obtain ⟨new, htr, hcalls, hle, hall⟩ := ForwardDifference.evaluates_dense p nm c.epsfcn st.x
    st.residuals st.factor s tr
  have hnone := jacobianAnswers_of_evaluations hcalls
  have hextra := hcalls.trans_le hle
  refine ⟨new, ?_⟩
  rw [numerical]
  rcases hsweep : ForwardDifference.dense p.traced nm c.epsfcn st.x st.residuals st.factor (s, tr)
    with ⟨e | _, x, a, s'⟩
  · rw [hsweep] at htr
    exact ⟨htr, hle, .aborted e hextra hnone.le rfl rfl⟩
  · -- a sweep that is not aborted has all the evaluations that are billed
    rw [hsweep] at htr hall
    have hsize := hcalls.trans (hall rfl)
    exact ⟨htr, hle, .completed hextra hnone (congrArg (st.evaluations + ·) hsize.symm) rfl⟩

/-- Folding in a list of rows asks for each of them until a call aborts, and makes no evaluation. -/
theorem calls_foldRows (p : RowProblem σ α m n) (x : Vec α n) (residuals : Vec α m)
    (rows : List (Fin m)) (a : Mat α n n) (b : Vec α n) (s : σ) (tr : Array (Event α m n)) :
    ∃ new : Array (Event α m n),
      (foldRows p.traced x residuals rows a b (s, tr)).2.2.2.2 = tr ++ new ∧
        new.size ≤ rows.length ∧ evaluationCalls new = 0 ∧
        ((foldRows p.traced x residuals rows a b (s, tr)).1 = .ok () →
          jacobianAnswers new = rows.length) ∧
        ∀ e, (foldRows p.traced x residuals rows a b (s, tr)).1 = .error e →
          jacobianAnswers new < rows.length := by
  induction rows generalizing a b s tr with
  | nil =>
    refine ⟨#[], Array.append_empty.symm, le_rfl, rfl, fun _ => rfl, ?_⟩
    intro e he
    cases he
  | cons i rows ih =>
    have hcall := Callback.traced_apply (.jacobianRow x i) (p.jacobianRow x i) s tr
    simp only [foldRows, RowProblem.traced, hcall, List.length_cons]
    rcases p.jacobianRow x i s with ⟨e | w, s'⟩
    · refine ⟨_, rfl, Nat.succ_le_succ (Nat.zero_le _), evaluationCalls_single _ _, ?_,
        fun _ _ => Nat.succ_pos _⟩
      intro hok
      cases hok
    · obtain ⟨new, htr, hsize, hcalls, hall, hless⟩ := ih (rowUpdate a w b (residuals i)).r
        (rowUpdate a w b (residuals i)).b s' (tr ++ #[⟨.jacobianRow x i, none⟩])
      have hone : jacobianAnswers (#[⟨.jacobianRow x i, none⟩] ++ new) =
          jacobianAnswers new + 1 := by
        rw [jacobianAnswers_append, Nat.add_comm]
        rfl
      refine ⟨#[⟨.jacobianRow x i, none⟩] ++ new, ?_, ?_, ?_, ?_, ?_⟩
      · rw [← Array.append_assoc]
        exact htr
      · rw [Array.size_append]
        exact (Nat.add_le_add_left hsize 1).trans_eq (Nat.add_comm 1 _)
      · rw [evaluationCalls_append, evaluationCalls_single, hcalls]
        rfl
      · exact fun hok => hone.trans (congrArg (· + 1) (hall hok))
      · exact fun e he => hone.trans_lt (Nat.succ_lt_succ (hless e he))

/-- A linearization by rows asks for all of them and makes no evaluation. -/
theorem metered_rowwise (p : RowProblem σ α m n) :
    Linearize.Metered (rowwise nm p.traced) 0 m := by
  intro st s tr
  obtain ⟨new, htr, hsize, hcalls, hall, hless⟩ := calls_foldRows p st.x st.residuals
    (List.finRange m) (Mat.zero n n) (Vec.zero n) s tr
  rw [List.length_finRange] at hsize hall hless
  refine ⟨new, ?_⟩
  rw [rowwise, Nat.zero_add]
  rcases hfold : foldRows p.traced st.x st.residuals (List.finRange m) (Mat.zero n n) (Vec.zero n)
    (s, tr) with ⟨e | _, a, b, s'⟩
  · rw [hfold] at htr hless
    exact ⟨htr, hsize, .aborted e hcalls.le (Nat.le_sub_one_of_lt (hless e rfl)) rfl rfl⟩
  · rw [hfold] at htr hall
    have hcounts : ∀ st' : State α m n n,
        (st'.settle nm).2.evaluations = st'.evaluations ∧
          (st'.settle nm).2.jacobians = st'.jacobians + 1 := by
      intro st'
      rw [State.settle]
      split <;> exact ⟨rfl, rfl⟩
    have heval := (hcounts { st with factor := a, rhs := b }).1
    exact ⟨htr, hsize, .completed hcalls.le (hall rfl)
      (heval.trans (congrArg (st.evaluations + ·) hcalls.symm)) (hcounts _).2⟩

end Linearizations

/-! ### The method -/

section Method

variable {nm : Numerics α} {c : Config α} {budget extra answers : Nat} {h : n ≤ r}

/-- Adapting the scaling counts no Jacobian. -/
@[simp] theorem jacobians_adapt (st : State α m r n) (norms : Vec α n) :
    (st.adapt nm c h norms).2.jacobians = st.jacobians := by
  rw [State.adapt]
  split
  · exact st.toIterate.jacobians_calibrate nm c.toSettings norms
  · exact st.toIterate.jacobians_calibrate nm c.toSettings norms

/-- Deciding on a step counts no Jacobian. -/
theorem jacobians_after (st : State α m r n) (t : Proposal α n) (f : Vec α m) :
    (st.after nm h t f).jacobians = st.jacobians := by
  have hres : ∀ (g : Gain α) (length norm1 : α),
      (st.resize g length norm1).jacobians = st.jacobians := by
    intro g length norm1
    rw [State.resize]
    repeat' split
    all_goals rfl
  rw [State.after]
  split <;> exact hres _ _ _

variable {p : Problem σ α m n} {linearize : Linearize (Traced σ α m n) α m r n}

/-- The preparation of a round bills its linearization. -/
theorem Linearize.Metered.prepare (hl : linearize.Metered extra answers) (st : State α m r n)
    (s : σ)
    (tr : Array (Event α m n)) :
    ∃ new : Array (Event α m n),
      (LeastSquares.prepare nm c h p.traced linearize st (s, tr)).2.2.2 = tr ++ new ∧
        new.size ≤ extra + answers + 1 ∧
        Billed extra answers new st.toIterate
          (LeastSquares.prepare nm c h p.traced linearize st (s, tr)).2.1.toIterate
          (attempt c.toSettings p.traced linearize st (s, tr)) := by
  rw [LeastSquares.prepare, attempt, linearizesFrom?]
  by_cases hfresh : st.fresh
  · rw [if_pos hfresh, if_pos hfresh]
    obtain ⟨first, hsize, hcalls, hnone, hreport⟩ :=
      p.traced_reportIfDue c.toSettings st.toIterate s tr
    rw [hreport]
    rcases st.toIterate.reportIfDue c.toSettings p s with ⟨e | _, s₁⟩
    · exact ⟨first, rfl, by omega, .omitted hcalls hnone rfl rfl⟩
    · obtain ⟨new, htr, hnew, hbill⟩ := hl st s₁ (tr ++ first)
      refine ⟨first ++ new, ?_⟩
      rw [Array.size_append, ← Array.append_assoc]
      simp only
      rcases hlin : linearize st (s₁, tr ++ first) with ⟨e | norms, st', s''⟩
      · rw [hlin] at htr hbill
        exact ⟨htr, by omega, hbill.report_before hcalls hnone⟩
      · -- adapting to the linearization leaves the counts alone
        rw [hlin] at htr hbill
        have hadapted := hbill.congr rfl rfl (evaluations_adapt nm c h st' norms)
          (jacobians_adapt st' norms)
        exact ⟨htr, by omega, hadapted.report_before hcalls hnone⟩
  · rw [if_neg hfresh, if_neg hfresh]
    exact ⟨#[], Array.append_empty.symm, Nat.zero_le _, .omitted rfl rfl rfl rfl⟩

/-- An aborted linearization ends the solve. -/
theorem prepare_of_aborted {p : Problem σ α m n} {linearize : Linearize σ α m r n}
    {st : State α m r n} {s : σ} {a : Abort}
    (ha : attempt c.toSettings p linearize st s = .aborted a) :
    (prepare nm c h p linearize st s).1 = some (.user a) := by
  rcases hs : linearizesFrom? c.toSettings p st s with _ | s'
  · rw [attempt, hs] at ha
    cases ha
  · rw [prepare_of_linearizes hs]
    rcases hlin : linearize st s' with ⟨e | norms, st', s''⟩
    all_goals
      simp only [attempt, hs, hlin] at ha
      cases ha
    rfl

/-- A preparation that does not linearize leaves the state alone. -/
theorem prepare_of_omitted {p : Problem σ α m n} {linearize : Linearize σ α m r n}
    {st : State α m r n} {s : σ} (homit : attempt c.toSettings p linearize st s = .omitted) :
    (prepare nm c h p linearize st s).2.1 = st := by
  rw [attempt, linearizesFrom?] at homit
  rw [prepare]
  by_cases hfresh : st.fresh
  · rcases hreport : st.toIterate.reportIfDue c.toSettings p s with ⟨e | _, s₁⟩
    · rw [if_pos hfresh]
    · simp only [if_pos hfresh, hreport] at homit
      rcases hlin : (linearize st s₁).1 with e | norms <;> rw [hlin] at homit <;> cases homit
  · rw [if_neg hfresh]

/-- A move that completes a linearization adapts to it. -/
theorem next_of_completed (nm : Numerics α) {c : Config α} (budget : Nat) (h : n ≤ r)
    {p : Problem σ α m n} {linearize : Linearize σ α m r n}
    (accepts : Acceptance (State α m r n) α m n) {mo : Moment σ α n (State α m r n)}
    (hcomp : mo.attempt (attempt c.toSettings p linearize) = .completed) :
    ∃ s norms, mo.stage = .ready ∧ linearizesFrom? c.toSettings p mo.state mo.world = some s ∧
      (linearize mo.state s).1 = .ok norms ∧
      (method nm c budget h p linearize).next accepts p mo =
        ⟨.ofPreparation ((linearize mo.state s).2.1.adapt nm c h norms).1,
          ((linearize mo.state s).2.1.adapt nm c h norms).2, (linearize mo.state s).2.2,
          mo.base⟩ := by
  obtain ⟨stage, st, s, b⟩ := mo
  cases stage with
  | ready =>
    have hattempt : attempt c.toSettings p linearize st s = .completed := hcomp
    rcases hs : linearizesFrom? c.toSettings p st s with _ | s'
    · simp only [attempt, hs, reduceCtorEq] at hattempt
    · rcases hlin : linearize st s' with ⟨e | norms, st', s''⟩
      · simp only [attempt, hs, hlin, Attempt.ofResult, reduceCtorEq] at hattempt
      · refine ⟨s', norms, rfl, rfl, congrArg Prod.fst hlin, ?_⟩
        rw [Method.next_ready]
        change Moment.mk (Stage.ofPreparation (prepare nm c h p linearize st s).1)
          (prepare nm c h p linearize st s).2.1 (prepare nm c h p linearize st s).2.2 b = _
        rw [prepare_of_linearizes hs]
        simp only [hlin]
  | prepared => cases hcomp
  | proposed t => cases hcomp
  | ended reason => cases hcomp

/-- A move that does not linearize leaves the factorization alone. -/
theorem factorization_next_of_omitted (nm : Numerics α) (budget : Nat) (h : n ≤ r)
    {p : Problem σ α m n} {linearize : Linearize σ α m r n}
    (accepts : Acceptance (State α m r n) α m n) {mo : Moment σ α n (State α m r n)}
    (homit : mo.attempt (attempt c.toSettings p linearize) = .omitted) :
    mo.state.SameFactorization ((method nm c budget h p linearize).next accepts p mo).state := by
  obtain ⟨stage, st, s, b⟩ := mo
  cases stage with
  | ready =>
    rw [Method.next_ready]
    change st.SameFactorization (prepare nm c h p linearize st s).2.1
    rw [prepare_of_omitted homit]
  | prepared => exact factorization_propose nm h st
  | proposed t =>
    rcases heval : p.evaluate t.point s with ⟨e | v, s'⟩
    · rw [Method.next_proposed_of_error heval]
    · rw [Method.next_proposed_of_ok heval]
      change st.SameFactorization (st.judge nm c budget h t v).2
      rw [judge_state]
      exact factorization_after nm h st t v
  | ended reason => exact .refl st

/-- The Levenberg-Marquardt method is metered if its linearization is. -/
theorem metered_method (hl : linearize.Metered extra answers) :
    (method nm c budget h p.traced linearize).Metered
      (attempt c.toSettings p.traced linearize) extra answers where
  propose _ := rfl
  judge st t f := by
    change (st.judge nm c budget h t f).2.jacobians = _
    rw [judge_state]
    exact jacobians_after st t f
  prepare st s tr := hl.prepare st s tr
  aborted _ _ _ ha := prepare_of_aborted ha

end Method

/-! ### Solves -/

section Run

variable (nm : Numerics α) (c : Config α) (patience : Nat) (p : Problem σ α m n)
  (rows : n ≤ m → n ≤ r) (x : Vec α n) (s : σ)

/-- What becomes of the linearization in the move after a moment. -/
def attempts (linearize : n ≤ m → Linearize σ α m r n) (mo : Moment σ α n (State α m r n)) :
    Attempt :=
  if h : n ≤ m then mo.attempt (attempt c.toSettings p (linearize h)) else .omitted

variable {patience} {extra answers : Nat} {linearize : n ≤ m → Linearize σ α m r n}
  {linearize' : n ≤ m → Nat → Answer σ α m n → Linearize (Traced σ α m n) α m r n}
  {traced : n ≤ m → Linearize (Traced σ α m n) α m r n}

/-- Tracing a problem does not change the report on it. -/
theorem run_traced (hl : ∀ h, (linearize h).Recounts)
    (hl' : ∀ h, (linearize h).Recorded (linearize' h))
    (htraced : ∀ h k, linearize' h k p.traced.report = traced h) (hpat : 0 < patience) :
    (run nm c patience p.traced rows traced x (s, #[])).1 =
      (run nm c patience p rows linearize x s).1 := by
  obtain ⟨calls, -, hanswer⟩ := stopsAtAbort_run nm c p rows x s hl hl' hpat
  have hsame := hanswer p.traced.report
  simp only [Problem.answering_traced, htraced] at hsame
  exact hsame

/-- Tracing a problem does not change the report on a minimization with its Jacobian. -/
theorem minimize_traced (p : JacobianProblem σ α m n) :
    (minimize nm c p.traced x (s, #[])).1 = (minimize nm c p x s).1 :=
  run_traced nm c p.toProblem id x s (recounts_analytic nm · p) (recorded_analytic nm · p)
    (fun h k => congrArg (analytic nm h) (p.answering_traced k)) (by decide)

/-- The accounts of every solve of a traced problem are in order. -/
theorem accounts_run (hl : ∀ h, (traced h).Recounts) (hm : ∀ h, (traced h).Metered extra answers)
    (hpat : 0 < patience) :
    Accounts (course nm c patience p.traced rows traced x (s, #[])) (attempts c p.traced traced)
      (c.budget patience n) extra answers
      (run nm c patience p.traced rows traced x (s, #[])).1.toSummary
      (run nm c patience p.traced rows traced x (s, #[])).2.2 := by
  by_cases h : n ≤ m
  · have hattempts : attempts c p.traced traced =
        Moment.attempt (attempt c.toSettings p.traced (traced h)) :=
      funext fun _ => dif_pos h
    rw [hattempts]
    rcases hc : c.fault? n with _ | e
    · have hbudget : 1 < c.budget patience n :=
        Nat.lt_of_le_of_lt (Config.pos_of_fault? hc)
          (Settings.lt_budget (Config.settings_fault? hc) hpat)
      rw [course_eq h hc, run_eq h hc]
      exact (metered_method (hm h)).accounts (keepsBudget_method (hl h)) (fun _ => rfl) hbudget
    · simp only [course, run, dif_pos h, hc]
      exact .of_rejected rfl rfl _ _ _ rfl rfl rfl
  · simp only [course, run, dif_neg h]
    exact .of_rejected rfl (dif_neg h) _ _ _ rfl rfl rfl

end Run

end LeastSquares

end NonlinearSolve

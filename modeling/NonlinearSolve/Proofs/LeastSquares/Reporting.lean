import NonlinearSolve.Proofs.Course.Calls
import NonlinearSolve.Proofs.LeastSquares.Accounts

/-! # The reports of a minimization

A minimization goes on in outer iterations, each of which reports its iterate if that is due, then
linearizes there, and makes trial steps until one is accepted. If no callback aborts, the trace of a
minimization shows this and nothing else (`Follows`, `Follows.next`), whatever the linearization
calls (`Linearize.Makes`). -/

namespace NonlinearSolve

namespace LeastSquares

variable {σ α : Type} [Scalar α] {m r n : Nat}

/-! ### The calls of a linearization -/

/-- A linearization for a traced problem that never aborts and makes the calls `lin` at an
iterate. -/
def Linearize.Makes (linearize : Linearize (Traced σ α m n) α m r n)
    (lin : Vec α n → List (Call α m n)) : Prop :=
  ∀ (st : State α m r n) (s : σ) (calls : List (Call α m n)), ∃ norms st' s',
    linearize st (s, settled calls) = (.ok norms, st', s', settled (calls ++ lin st.x)) ∧
      st'.jacobians = st.jacobians + 1

/-- The calls of a sweep of forward differences at `x`. -/
def differenceCalls (nm : Numerics α) (c : Settings α) (x : Vec α n) : List (Call α m n) :=
  (List.finRange n).map fun j =>
    .evaluate (ForwardDifference.displaced (ForwardDifference.relativeStep nm c.epsfcn)
      (fun k => k == j) x)

section Linearizations

variable (nm : Numerics α)

/-- Linearizing with the Jacobian of the problem makes one call. -/
theorem makes_analytic (h : n ≤ m) {p : JacobianProblem σ α m n} (hp : p.NeverAborts) :
    Linearize.Makes (analytic nm h p.traced) fun x => [.jacobian x] := by
  intro st s calls
  obtain ⟨jac, s', -, hcall⟩ := (hp.jacobian st.x).traced (.jacobian st.x) s calls
  simp only [analytic, JacobianProblem.traced, hcall]
  exact ⟨_, _, _, rfl, rfl⟩

/-- A sweep in which no call aborts makes one evaluation for each group of columns. -/
theorem sweep_settled {p : Problem σ α m n} (hp : p.NeverAborts) (eps : α)
    (write : ForwardDifference.Writer α m n) (fvec : Vec α m) (groups : List (Fin n → Bool))
    (x : Vec α n) (a : Mat α m n) (s : σ) (calls : List (Call α m n)) :
    ∃ a' s', ForwardDifference.sweep p.traced eps write fvec groups x a (s, settled calls) =
      (.ok (), x, a', s', settled (calls ++
        groups.map fun group => .evaluate (ForwardDifference.displaced eps group x))) := by
  induction groups generalizing a s calls with
  | nil => exact ⟨a, s, by rw [List.map_nil, List.append_nil]; rfl⟩
  | cons group groups ih =>
    obtain ⟨f, s', -, hcall⟩ := (hp.evaluate (ForwardDifference.displaced eps group x)).traced
      (.evaluate (ForwardDifference.displaced eps group x)) s calls
    obtain ⟨a', s'', hrest⟩ := ih (ForwardDifference.fill eps write x fvec f group a) s'
      (calls ++ [.evaluate (ForwardDifference.displaced eps group x)])
    have heval : p.traced.evaluate (ForwardDifference.displaced eps group x) (s, settled calls) =
      _ := hcall
    rw [List.append_assoc, List.singleton_append] at hrest
    refine ⟨a', s'', ?_⟩
    simp only [ForwardDifference.sweep, heval, ForwardDifference.restored_displaced]
    exact hrest

/-- Linearizing by differences makes the evaluations of its sweep. -/
theorem makes_numerical (h : n ≤ m) (c : Settings α) {p : Problem σ α m n} (hp : p.NeverAborts) :
    Linearize.Makes (numerical nm h c p.traced) (differenceCalls nm c) := by
  intro st s calls
  obtain ⟨a, s', hsweep⟩ := sweep_settled hp (ForwardDifference.relativeStep nm c.epsfcn)
    (fun _ q _ => q) st.residuals (ForwardDifference.singletons n) st.x st.factor s calls
  rw [ForwardDifference.singletons, List.map_map] at hsweep
  simp only [numerical, ForwardDifference.dense, ForwardDifference.singletons, hsweep]
  exact ⟨_, _, _, rfl, rfl⟩

/-- Folding rows of which none aborts asks for each of them once, in order. -/
theorem foldRows_settled {p : RowProblem σ α m n} (hp : p.NeverAborts) (x : Vec α n)
    (residuals : Vec α m) (rows : List (Fin m)) (q : Mat α n n) (b : Vec α n) (s : σ)
    (calls : List (Call α m n)) :
    ∃ q' b' s', foldRows p.traced x residuals rows q b (s, settled calls) =
      (.ok (), q', b', s', settled (calls ++ rows.map (.jacobianRow x))) := by
  induction rows generalizing q b s calls with
  | nil => exact ⟨q, b, s, by rw [List.map_nil, List.append_nil]; rfl⟩
  | cons i rows ih =>
    obtain ⟨w, s', -, hcall⟩ := (hp.jacobianRow x i).traced (.jacobianRow x i) s calls
    obtain ⟨q', b', s'', hrest⟩ := ih (rowUpdate q w b (residuals i)).r
      (rowUpdate q w b (residuals i)).b s' (calls ++ [.jacobianRow x i])
    have hrow : p.traced.jacobianRow x i (s, settled calls) = _ := hcall
    rw [List.append_assoc, List.singleton_append] at hrest
    refine ⟨q', b', s'', ?_⟩
    simp only [foldRows, hrow]
    exact hrest

/-- Linearizing row by row asks for every row once, from the first to the last. -/
theorem makes_rowwise {p : RowProblem σ α m n} (hp : p.NeverAborts) :
    Linearize.Makes (rowwise nm p.traced) fun x => (List.finRange m).map (.jacobianRow x) := by
  intro st s calls
  obtain ⟨q, b, s', hrows⟩ := foldRows_settled hp st.x st.residuals (List.finRange m)
    (Mat.zero n n) (Vec.zero n) s calls
  simp only [rowwise, hrows]
  refine ⟨_, _, _, rfl, ?_⟩
  rw [State.settle]
  split <;> rfl

end Linearizations

/-! ### The course of a minimization -/

/-- Where a moment lies between the outer iterations. -/
def Stage.Between (its : List (Vec α n × Vec α m)) (outer : List (Outer α m n))
    (st : State α m r n) : Stage α n → Prop
  | .ready => (st.fresh = true → Awaits its outer st.x st.residuals) ∧
      (st.fresh = false → Runs its outer st.x st.residuals)
  | .ended _ => Awaits its outer st.x st.residuals ∨ Runs its outer st.x st.residuals
  | _ => Runs its outer st.x st.residuals

/-- At a moment of the minimization from `x` on there have been the iterates `its` and the calls of
the iterations `outer`. -/
structure Follows (lin : Vec α n → List (Call α m n)) (q : Nat) (x : Vec α n)
    (its : List (Vec α n × Vec α m)) (outer : List (Outer α m n))
    (mo : Moment (Traced σ α m n) α n (State α m r n)) : Prop where
  trace : mo.world.2 = settled (.evaluate x :: outerCalls lin q outer)
  iteration : mo.state.iteration = its.length
  jacobians : mo.state.jacobians = outer.length
  between : Stage.Between its outer mo.state mo.stage

section Moves

variable {nm : Numerics α} {c : Config α} {budget : Nat} {h : n ≤ r} {p : Problem σ α m n}
  {linearize : Linearize (Traced σ α m n) α m r n} {lin : Vec α n → List (Call α m n)}
  {x : Vec α n} {its : List (Vec α n × Vec α m)} {outer : List (Outer α m n)}

variable (nm c h) in
/-- An outer iteration begins with a report, if that is due, and the linearization. -/
theorem Linearize.Makes.prepare (hm : linearize.Makes lin) (hl : linearize.Recounts)
    (hp : p.NeverAborts) {st : State α m r n} (hfresh : st.fresh = true) {k : Nat}
    (hk : st.iteration = k + 1) (s : σ) (calls : List (Call α m n)) :
    ∃ reason st' s', LeastSquares.prepare nm c h p.traced linearize st (s, settled calls) =
        (reason, st', s', settled (calls ++
          Outer.calls lin c.reportEvery ⟨st.x, st.residuals, []⟩ k)) ∧
      st'.position = st.position ∧ st'.jacobians = st.jacobians + 1 := by
  obtain ⟨s₁, hreport⟩ := hp.reportIfDue c.toSettings st.toIterate hk s calls
  obtain ⟨norms, st₂, s₂, hlin, hcount⟩ := hm st s₁ (calls ++
    if 0 < c.reportEvery ∧ c.reportEvery ∣ k then [.report (k + 1) st.x st.residuals] else [])
  have hpos := (hl st (s₁, settled (calls ++
    if 0 < c.reportEvery ∧ c.reportEvery ∣ k then [.report (k + 1) st.x st.residuals]
    else []))).position_eq
  rw [hlin] at hpos
  refine ⟨(st₂.adapt nm c h norms).1, (st₂.adapt nm c h norms).2, s₂, ?_, ?_, ?_⟩
  · rw [LeastSquares.prepare, if_pos hfresh]
    simp only [hreport, hlin, Outer.calls, List.map_nil, List.append_nil, List.append_assoc]
  · exact (position_adapt nm c h st₂ norms).trans hpos
  · exact (jacobians_adapt st₂ norms).trans hcount

/-- A new outer iteration begins when a round begins at a new iterate. -/
theorem Follows.ready (hm : linearize.Makes lin) (hl : linearize.Recounts) (hp : p.NeverAborts)
    {st : State α m r n} {w : Traced σ α m n} {b : Vec α n}
    (hmo : Follows lin c.reportEvery x its outer ⟨.ready, st, w, b⟩) :
    ∃ outer', Follows lin c.reportEvery x its outer'
      ((method nm c budget h p.traced linearize).next (accepts nm h) p.traced
        ⟨.ready, st, w, b⟩) := by
  obtain ⟨htrace, hiteration, hjacobians, hawaits, hruns⟩ := hmo
  obtain ⟨s, tr⟩ := w
  obtain rfl : tr = _ := htrace
  simp only at hiteration hjacobians
  rw [Method.next_ready]
  change ∃ outer', Follows _ _ _ _ _ ⟨.ofPreparation (prepare nm c h p.traced linearize st _).1,
    (prepare nm c h p.traced linearize st _).2.1, (prepare nm c h p.traced linearize st _).2.2, b⟩
  by_cases hfresh : st.fresh = true
  · have hbegin := (hawaits hfresh).begin
    have hk : st.iteration = outer.length + 1 := hiteration.trans (hawaits hfresh).length_eq
    obtain ⟨reason, st', s', hprep, hpos, hcount⟩ := hm.prepare nm c h hl hp hfresh hk s
      (.evaluate x :: outerCalls lin c.reportEvery outer)
    have hx : st'.x = st.x := congrArg Position.x hpos
    have hf : st'.residuals = st.residuals := congrArg Position.residuals hpos
    refine ⟨outer ++ [⟨st.x, st.residuals, []⟩], ?_⟩
    rw [hprep]
    refine ⟨?_, ?_, ?_, ?_⟩
    · rw [outerCalls_append, List.cons_append]
    · exact (congrArg Position.iteration hpos).trans hiteration
    · rw [List.length_append, ← hjacobians]
      exact hcount
    · rw [← hx, ← hf] at hbegin ⊢
      cases reason with
      | none => exact hbegin
      | some reason => exact Or.inr hbegin
  · refine ⟨outer, ?_⟩
    rw [prepare, if_neg hfresh]
    exact ⟨rfl, hiteration, hjacobians, hruns (Bool.eq_false_iff.2 hfresh)⟩

omit [Scalar α] in
/-- After an accepted step the next outer iteration is awaited. -/
theorem Stage.between_of_accepted {st : State α m r n} (hfresh : st.fresh = true)
    (hawaits : Awaits its outer st.x st.residuals) (reason : Option Termination) :
    Stage.Between its outer st (.ofVerdict reason) := by
  cases reason with
  | none =>
    exact ⟨fun _ => hawaits, fun h => absurd (hfresh.symm.trans h) Bool.noConfusion⟩
  | some reason => exact Or.inl hawaits

omit [Scalar α] in
/-- After a rejected step the outer iteration still runs. -/
theorem Stage.between_of_rejected {st : State α m r n} (hfresh : st.fresh = false)
    (hruns : Runs its outer st.x st.residuals) (reason : Option Termination) :
    Stage.Between its outer st (.ofVerdict reason) := by
  cases reason with
  | none => exact ⟨fun h => absurd (hfresh.symm.trans h) Bool.noConfusion, fun _ => hruns⟩
  | some reason => exact Or.inr hruns

/-- A trial step is the last one of its outer iteration if it is accepted. -/
theorem Follows.judge {st : State α m r n} {t : Proposal α n} {w : Traced σ α m n} {s' : σ}
    {b b' : Vec α n} (hmo : Follows lin c.reportEvery x its outer ⟨.proposed t, st, w, b⟩)
    (f : Vec α m) :
    ∃ outer', Follows lin c.reportEvery x
      (its ++ (if accepts nm h st t f then some (t.point, f) else none).toList) outer'
      ⟨.ofVerdict (st.judge nm c budget h t f).1, (st.judge nm c budget h t f).2,
        (s', settled (.evaluate x :: outerCalls lin c.reportEvery outer ++ [.evaluate t.point])),
        b'⟩ := by
  obtain ⟨-, hiteration, hjacobians, hruns⟩ := hmo
  simp only at hiteration hjacobians
  obtain ⟨outer', hcalls, hlength, hruns', hawaits⟩ :=
    Runs.trial hruns lin c.reportEvery t.point
  have hpos := position_after nm h st t f
  have hcount : (st.after nm h t f).jacobians = outer'.length :=
    ((jacobians_after st t f).trans hjacobians).trans hlength.symm
  have hfresh := fresh_after nm h st t f
  refine ⟨outer', ?_⟩
  rw [judge_state, List.cons_append, ← hcalls]
  by_cases hacc : accepts nm h st t f = true
  · rw [if_pos hacc] at hpos ⊢
    have hx : (st.after nm h t f).x = t.point := congrArg Position.x hpos
    have hf : (st.after nm h t f).residuals = f := congrArg Position.residuals hpos
    have hiter : (st.after nm h t f).iteration = st.iteration + 1 :=
      congrArg Position.iteration hpos
    refine ⟨rfl, ?_, hcount, Stage.between_of_accepted (hfresh.trans hacc) ?_ _⟩
    · rw [Option.toList_some, List.length_append, ← hiteration]
      exact hiter
    · rw [hx, hf]
      exact hawaits f
  · rw [if_neg hacc] at hpos ⊢
    have hx : (st.after nm h t f).x = st.x := congrArg Position.x hpos
    have hf : (st.after nm h t f).residuals = st.residuals := congrArg Position.residuals hpos
    have hiter : (st.after nm h t f).iteration = st.iteration := congrArg Position.iteration hpos
    rw [Option.toList_none, List.append_nil]
    refine ⟨rfl, hiter.trans hiteration, hcount,
      Stage.between_of_rejected (hfresh.trans (Bool.eq_false_iff.2 hacc)) ?_ _⟩
    rw [hx, hf]
    exact hruns'

/-- Every move adds its calls to the outer iterations. -/
theorem Follows.next (hm : linearize.Makes lin) (hl : linearize.Recounts) (hp : p.NeverAborts)
    {mo : Moment (Traced σ α m n) α n (State α m r n)}
    (hmo : Follows lin c.reportEvery x its outer mo) :
    ∃ outer', Follows lin c.reportEvery x
      (its ++ (accepted? (accepts nm h) p.traced mo).toList) outer'
      ((method nm c budget h p.traced linearize).next (accepts nm h) p.traced mo) := by
  obtain ⟨stage, st, ⟨s, tr⟩, b⟩ := mo
  obtain rfl : tr = _ := hmo.trace
  cases stage with
  | ready =>
    rw [accepted?, Option.toList_none, List.append_nil]
    exact hmo.ready hm hl hp
  | prepared =>
    obtain ⟨htrace, hiteration, hjacobians, hruns⟩ := hmo
    rw [accepted?, Option.toList_none, List.append_nil]
    exact ⟨outer, htrace, hiteration, hjacobians, hruns⟩
  | proposed t =>
    obtain ⟨f, s', -, hcall⟩ := (hp.evaluate t.point).traced (.evaluate t.point) s
      (.evaluate x :: outerCalls lin c.reportEvery outer)
    have heval : p.traced.evaluate t.point (s, settled _) = _ := hcall
    rw [Method.next_proposed_of_ok heval]
    simp only [accepted?, heval]
    exact hmo.judge f
  | ended reason =>
    rw [accepted?, Option.toList_none, List.append_nil]
    exact ⟨outer, hmo⟩

end Moves

/-! ### Minimizations -/

section Run

variable (nm : Numerics α) (c : Config α) (patience : Nat) {p : Problem σ α m n}
  (rows : n ≤ m → n ≤ r) {linearize : n ≤ m → Linearize (Traced σ α m n) α m r n}
  {lin : Vec α n → List (Call α m n)} (x : Vec α n) (s : σ)

/-- At the first moment no outer iteration has begun. -/
theorem follows_opening (budget : Nat) (h : n ≤ r) (linearize : Linearize (Traced σ α m n) α m r n)
    (lin : Vec α n → List (Call α m n)) {f : Vec α m} {s₁ : σ}
    (hfirst : p.traced.evaluate x (s, #[]) = (.ok f, s₁, settled [.evaluate x])) :
    Follows lin c.reportEvery x [(x, f)] []
      ((method nm c budget h p.traced linearize).opening nm c.toSettings p.traced x (s, #[])) := by
  have hawaits : Awaits [(x, f)] [] x f := ⟨rfl, List.isChain_singleton _⟩
  simp only [Method.opening, Iterate.evaluate, Iterate.start, hfirst]
  exact ⟨rfl, rfl, rfl, Stage.between_of_accepted rfl hawaits _⟩

/-- At every moment the calls are those of some outer iterations through the iterates. -/
theorem follows_course (h : n ≤ m) (hc : c.fault? n = none) (hm : (linearize h).Makes lin)
    (hl : (linearize h).Recounts) (hp : p.NeverAborts) {f : Vec α m} {s₁ : σ}
    (hfirst : p.traced.evaluate x (s, #[]) = (.ok f, s₁, settled [.evaluate x])) (k : Nat) :
    ∃ outer, Follows lin c.reportEvery x
      (iterates (accepts nm (rows h)) p.traced (x, f)
        (course nm c patience p.traced rows linearize x (s, #[])) k) outer
      (course nm c patience p.traced rows linearize x (s, #[]) k) := by
  rw [course_eq h hc]
  induction k with
  | zero => exact ⟨[], follows_opening nm c x s _ (rows h) (linearize h) lin hfirst⟩
  | succ k ih =>
    obtain ⟨outer, hk⟩ := ih
    rw [iterates, Method.course_succ]
    exact hk.next hm hl hp

/-- A minimization reports its iterations. -/
theorem reportsIterations_run (h : n ≤ m) (hc : c.fault? n = none)
    (hm : ∀ h, (linearize h).Makes lin) (hl : ∀ h, (linearize h).Recounts) (hp : p.NeverAborts)
    (hpat : 0 < patience) :
    ReportsIterations (accepts nm (rows h)) p.traced x (s, #[]) lin c.reportEvery
      (course nm c patience p.traced rows linearize x (s, #[]))
      (run nm c patience p.traced rows linearize x (s, #[])).1.toSummary
      (run nm c patience p.traced rows linearize x (s, #[])).2.2 := by
  obtain ⟨f, s₁, -, hfirst⟩ := (hp.evaluate x).traced (.evaluate x) s []
  have hpos : 0 < c.budget patience n := Settings.budget_pos (Config.settings_fault? hc) hpat
  have hbudget : (method nm c (c.budget patience n) (rows h) p.traced (linearize h)).KeepsBudget
      (c.budget patience n) := keepsBudget_method (hl h)
  obtain ⟨k, b, hk⟩ := hbudget.exists_course_ended (accepts nm (rows h)) p.traced hpos
    (fun _ => rfl) nm c.toSettings x (s, #[])
  obtain ⟨outer, hfollows⟩ := follows_course nm c patience rows x s h hc (hm h) (hl h) hp
    hfirst k
  refine ⟨f, _, k, outer, hfirst, ?_, ?_⟩
  · rw [course_eq h hc, hk, run_eq h hc]
    simp only [Method.run_eq]
    rfl
  · generalize iterates (accepts nm (rows h)) p.traced (x, f)
      (course nm c patience p.traced rows linearize x (s, #[])) k = its at hfollows ⊢
    rw [course_eq h hc, hk] at hfollows
    obtain ⟨htrace, hiteration, hjacobians, hbetween⟩ := hfollows
    rw [run_eq h hc]
    simp only [Method.run_eq] at hbetween htrace hiteration hjacobians ⊢
    refine ⟨hbetween, hjacobians, ?_⟩
    generalize (method nm c (c.budget patience n) (rows h) p.traced (linearize h)).solve nm
      c.toSettings (c.budget patience n) p.traced x (s, #[]) = sol at htrace hiteration ⊢
    obtain ⟨reason, st, s', tr⟩ := sol
    obtain rfl : tr = _ := htrace
    by_cases hq : 0 < c.reportEvery
    · obtain ⟨_, s₂, -, hreport⟩ := (hp.report its.length st.x st.residuals).traced
        (.report its.length st.x st.residuals) s'
        (.evaluate x :: outerCalls lin c.reportEvery outer)
      rw [if_pos hq, if_pos hq]
      change (p.traced.report st.iteration st.x st.residuals (s', settled _)).2.2 = _
      rw [show st.iteration = its.length from hiteration]
      exact congrArg (fun result => result.2.2) hreport
    · rw [if_neg hq, if_neg hq, List.append_nil]

/-- With improper input nothing is called. -/
theorem world_run_of_improper (p : Problem σ α m n) (linearize : n ≤ m → Linearize σ α m r n)
    (hbad : ¬ (n ≤ m ∧ c.fault? n = none)) :
    (run nm c patience p rows linearize x s).2 = s := by
  rw [run]
  by_cases h : n ≤ m
  · rw [dif_pos h]
    rcases hc : c.fault? n with _ | e
    · exact absurd ⟨h, hc⟩ hbad
    · rfl
  · rw [dif_neg h]

end Run

end LeastSquares

end NonlinearSolve

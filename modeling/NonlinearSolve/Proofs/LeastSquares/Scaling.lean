import NonlinearSolve.Proofs.Course.Scaling
import NonlinearSolve.Proofs.LeastSquares.LastJacobian

/-! # The scaling of a minimization

Each of the three linearizations reports the norms of the columns of its Jacobian
(`Linearize.Measures`), in the order of the unknowns, whatever the order of the factorization is.
With the scaling by the Jacobian, a minimization starts afresh with the first of them and lets the
scaling factors grow with every other one (`scalesByJacobians_run`). -/

namespace NonlinearSolve

namespace LeastSquares

open Matrix Scalar

variable {σ : Type} {m r n : Nat}

/-! ### The norms of a linearization -/

/-- A linearization that reports the norms of the columns of the Jacobian `jac`, whenever it is
completed. -/
def Linearize.Measures (linearize : Linearize σ ℝ m r n) (jac : Jacobian σ ℝ m r n) : Prop :=
  ∀ (st : State ℝ m r n) (s : σ) (norms : Vec ℝ n), (linearize st s).1 = .ok norms →
    ∃ a, jac st s = .ok a ∧ ∀ j, norms j = colNorm a j

section Linearizations

variable (ε τ : ℝ) (z : Bool)

/-- Linearizing with the Jacobian of the problem measures the columns of its answer. -/
theorem measures_analytic (h : n ≤ m) (p : JacobianProblem σ ℝ m n) :
    Linearize.Measures (analytic (Numerics.exact ε τ z) h p) (analyticJacobian p) := by
  intro st s norms hok
  rw [analytic] at hok
  rw [analyticJacobian]
  rcases hjac : p.jacobian st.x s with ⟨e | a, s'⟩
  · rw [hjac] at hok
    cases hok
  · rw [hjac] at hok
    cases hok
    exact ⟨a, rfl, colNorm_factor ε τ z true a⟩

/-- Linearizing by differences measures the columns of the matrix of differences. -/
theorem measures_numerical (h : n ≤ m) (c : Settings ℝ) (p : Problem σ ℝ m n) :
    Linearize.Measures (numerical (Numerics.exact ε τ z) h c p)
      (numericalJacobian (Numerics.exact ε τ z) c p) := by
  intro st s norms hok
  rw [numerical] at hok
  rw [numericalJacobian]
  rcases hsweep : ForwardDifference.dense p (Numerics.exact ε τ z) c.epsfcn st.x st.residuals
    st.factor s with ⟨e | _, x, a, s'⟩
  · rw [hsweep] at hok
    cases hok
  · rw [hsweep] at hok
    cases hok
    exact ⟨a, rfl, colNorm_factor ε τ z true a⟩

/-- The triangle that all rows are folded into has the column norms of the matrix of the rows. -/
theorem measures_rowwise (p : RowProblem σ ℝ m n) :
    Linearize.Measures (rowwise (Numerics.exact ε τ z) p) (rowwiseJacobian p) := by
  intro st s norms hok
  obtain ⟨a, st', hjac, htri, heq, rfl, -⟩ := rowwise_completed ε τ z p hok
  refine ⟨a, hjac, ?_⟩
  intro j
  rw [settle_norms htri (congrArg NormalEquations.matrix heq).symm, columnNorms, Vec.of_apply,
    Numerics.vecNorm_exact]
  rfl

end Linearizations

/-! ### The scaling of a moment -/

/-- At the moment the scaling factors are the largest norms of the columns of the Jacobians so far,
unless the first iteration is about to begin. -/
def Stage.Scaled (jacs : List (Mat ℝ m n)) (st : State ℝ m r n) : Stage ℝ n → Prop
  | .ready => (st.fresh = true ∧ st.iteration = 1 ∧ jacs = []) ∨
      ((st.fresh = true → st.iteration ≠ 1) ∧ ∀ j, IsLargestNorm jacs j (st.scale j))
  | .ended _ => True
  | _ => ∀ j, IsLargestNorm jacs j (st.scale j)

/-- With the Jacobians `jacs` linearized by so far, the iterations are counted from one on and the
scaling factors are the largest norms. -/
structure Scaled (jacs : List (Mat ℝ m n)) (mo : Moment σ ℝ n (State ℝ m r n)) : Prop where
  iteration : 0 < mo.state.iteration
  scale : Stage.Scaled jacs mo.state mo.stage

section Moves

variable {nm : Numerics ℝ} {c : Config ℝ} {budget : Nat} {h : n ≤ r} {p : Problem σ ℝ m n}
  {linearize : Linearize σ ℝ m r n} {jac : Jacobian σ ℝ m r n} {jacs : List (Mat ℝ m n)}

/-- If the solve goes on after the adaptation to a Jacobian, the scaling is adapted. -/
theorem scale_adapt {st : State ℝ m r n} {norms : Vec ℝ n}
    (hgo : (st.adapt nm c h norms).1 = none) :
    (st.adapt nm c h norms).2.scale =
      ((st.toIterate.calibrate nm c.toSettings norms).rescale c.toSettings norms).scale := by
  rw [State.adapt] at hgo ⊢
  simp only at hgo ⊢
  split at hgo
  · cases hgo
  · rename_i hcosine
    rw [if_neg hcosine]

/-- A preparation that does not linearize ends the solve or leaves all as it is. -/
theorem Stage.Scaled.of_none {st : State ℝ m r n} {s : σ}
    (hs : linearizesFrom? c.toSettings p st s = none) (hscale : Stage.Scaled jacs st .ready) :
    Stage.Scaled jacs (prepare nm c h p linearize st s).2.1
      (.ofPreparation (prepare nm c h p linearize st s).1) := by
  rw [linearizesFrom?] at hs
  rw [prepare]
  by_cases hfresh : st.fresh = true
  · rcases hreport : st.toIterate.reportIfDue c.toSettings p s with ⟨e | _, s'⟩
    · simp only [hfresh, if_true]
      trivial
    · simp only [hfresh, if_true, hreport, reduceCtorEq] at hs
  · obtain ⟨hnew, -⟩ | ⟨-, hlargest⟩ := hscale
    · exact absurd hnew hfresh
    · rw [if_neg hfresh]
      exact hlargest

/-- After a linearization the scaling is adapted to it. -/
theorem Stage.Scaled.of_linearized (hc : c.scaling = .jacobian) {st st' : State ℝ m r n}
    {a : Mat ℝ m n} {norms : Vec ℝ n} (hnorms : ∀ j, norms j = colNorm a j)
    (hrec : st.toIterate.Recounted st'.toIterate) (hfresh : st.fresh = true)
    (hscale : Stage.Scaled jacs st .ready) :
    Stage.Scaled (jacs ++ [a]) (st'.adapt nm c h norms).2
      (.ofPreparation (st'.adapt nm c h norms).1) := by
  have hiter : st'.iteration = st.iteration := congrArg Position.iteration hrec.position_eq
  have hsame : st'.scale = st.scale := by rw [hrec.eq]
  rcases hgo : (st'.adapt nm c h norms).1 with _ | reason
  · intro j
    rw [scale_adapt hgo]
    refine isLargestNorm_rescale hc hnorms ?_ j
    rw [hiter, hsame]
    obtain ⟨-, hfirst, rfl⟩ | ⟨hlater, hlargest⟩ := hscale
    · exact Or.inl ⟨hfirst, fun b hb => absurd hb List.not_mem_nil⟩
    · exact Or.inr ⟨hlater hfresh, hlargest⟩
  · trivial

/-- The preparation of a round keeps the scaling. -/
theorem Scaled.ready (hm : linearize.Measures jac) (hl : linearize.Recounts)
    (hc : c.scaling = .jacobian) {st : State ℝ m r n} {s : σ} {b : Vec ℝ n}
    (hmo : Scaled jacs ⟨.ready, st, s, b⟩) :
    Scaled (jacs ++ (jacobianAt? c.toSettings p jac ⟨.ready, st, s, b⟩).toList)
      ((method nm c budget h p linearize).next (accepts nm h) p ⟨.ready, st, s, b⟩) := by
  have hpos : (prepare nm c h p linearize st s).2.1.position = st.position :=
    (hl.prepare st s).1
  rw [Method.next_ready]
  refine ⟨hmo.iteration.trans_eq (congrArg Position.iteration hpos).symm, ?_⟩
  change Stage.Scaled _ (prepare nm c h p linearize st s).2.1
    (.ofPreparation (prepare nm c h p linearize st s).1)
  rcases hs : linearizesFrom? c.toSettings p st s with _ | s'
  · have hnone : jacobianAt? c.toSettings p jac ⟨.ready, st, s, b⟩ = none := by
      simp only [jacobianAt?, hs, Option.bind_none]
    rw [hnone, Option.toList_none, List.append_nil]
    exact .of_none hs hmo.scale
  · have hrec := hl st s'
    rw [prepare_of_linearizes hs]
    rcases hlin : linearize st s' with ⟨e | norms, st', s''⟩
    · trivial
    · obtain ⟨a, hjac, hnorms⟩ := hm st s' norms (congrArg Prod.fst hlin)
      rw [hlin] at hrec
      rw [jacobianAt?_of_ready rfl hs hjac, Option.toList_some]
      exact .of_linearized hc hnorms hrec (linearizesFrom?_eq_some.1 hs).1 hmo.scale

/-- A trial step does not change the scaling, and if it is accepted, another iteration than the
first one begins. -/
theorem Scaled.judge {st : State ℝ m r n} {t : Proposal ℝ n} {s s' : σ} {b b' : Vec ℝ n}
    (hmo : Scaled jacs ⟨.proposed t, st, s, b⟩) (f : Vec ℝ m) :
    Scaled jacs ⟨.ofVerdict (st.judge nm c budget h t f).1, (st.judge nm c budget h t f).2, s',
      b'⟩ := by
  have hiter : 0 < st.iteration := hmo.iteration
  have hpos := congrArg Position.iteration (position_after nm h st t f)
  have hfresh := fresh_after nm h st t f
  have hlargest : ∀ j, IsLargestNorm jacs j ((st.after nm h t f).scale j) := by
    rw [scale_after]
    exact hmo.scale
  rw [judge_state]
  by_cases hacc : accepts nm h st t f = true
  · rw [if_pos hacc] at hpos
    have hlater : (st.after nm h t f).iteration = st.iteration + 1 := hpos
    have hne : (st.after nm h t f).iteration ≠ 1 := by omega
    refine ⟨hlater ▸ Nat.succ_pos st.iteration, ?_⟩
    cases (st.judge nm c budget h t f).1 with
    | none => exact Or.inr ⟨fun _ => hne, hlargest⟩
    | some reason => trivial
  · rw [if_neg hacc] at hpos
    refine ⟨hiter.trans_eq hpos.symm, ?_⟩
    cases (st.judge nm c budget h t f).1 with
    | none => exact Or.inr ⟨fun hnew => absurd (hfresh.symm.trans hnew) hacc, hlargest⟩
    | some reason => trivial

/-- Every move keeps the scaling. -/
theorem Scaled.next (hm : linearize.Measures jac) (hl : linearize.Recounts)
    (hc : c.scaling = .jacobian) {mo : Moment σ ℝ n (State ℝ m r n)} (hmo : Scaled jacs mo) :
    Scaled (jacs ++ (jacobianAt? c.toSettings p jac mo).toList)
      ((method nm c budget h p linearize).next (accepts nm h) p mo) := by
  obtain ⟨stage, st, s, b⟩ := mo
  cases stage with
  | ready => exact hmo.ready hm hl hc
  | prepared =>
    rw [jacobianAt?, Option.toList_none, List.append_nil]
    exact ⟨hmo.iteration, hmo.scale⟩
  | proposed t =>
    rw [jacobianAt?, Option.toList_none, List.append_nil]
    rcases heval : p.evaluate t.point s with ⟨e | f, s'⟩
    · rw [Method.next_proposed_of_error heval]
      exact ⟨hmo.iteration, trivial⟩
    · rw [Method.next_proposed_of_ok heval]
      exact hmo.judge f
  | ended reason =>
    rw [jacobianAt?, Option.toList_none, List.append_nil]
    exact hmo

end Moves

/-! ### Minimizations -/

section Run

variable {nm : Numerics ℝ} {c : Config ℝ} {patience : Nat} {p : Problem σ ℝ m n}
  {rows : n ≤ m → n ≤ r} {linearize : n ≤ m → Linearize σ ℝ m r n} {jac : Jacobian σ ℝ m r n}

/-- Before anything is linearized the first iteration is to begin, if the solve goes on at all. -/
theorem scaled_opening (budget : Nat) (h : n ≤ r) (linearize : Linearize σ ℝ m r n) (x : Vec ℝ n)
    (s : σ) :
    Scaled [] ((method nm c budget h p linearize).opening nm c.toSettings p x s) := by
  rw [Method.opening, Iterate.evaluate]
  simp only
  rcases p.evaluate (Iterate.start (m := m) c.toSettings x).x s with ⟨e | f, s'⟩
  · exact ⟨Nat.one_pos, trivial⟩
  · refine ⟨Nat.one_pos, ?_⟩
    simp only
    split
    · trivial
    · exact Or.inl ⟨rfl, rfl, rfl⟩

variable (nm p) in
/-- Every moment of the method has its scaling. -/
theorem scaled_course (h : n ≤ r) {linearize : Linearize σ ℝ m r n} (hm : linearize.Measures jac)
    (hl : linearize.Recounts) (hc : c.scaling = .jacobian) (x : Vec ℝ n) (s : σ)
    (budget k : Nat) :
    let moments := (method nm c budget h p linearize).course (accepts nm h) nm c.toSettings p x s
    Scaled (linearized (jacobianAt? c.toSettings p jac) moments k) (moments k) := by
  intro moments
  induction k with
  | zero => exact scaled_opening budget h linearize x s
  | succ k ih =>
    rw [linearized, show moments (k + 1) = _ from Method.course_succ k]
    exact ih.next hm hl hc

variable (rows) in
/-- A minimization scales by its Jacobians. -/
theorem scalesByJacobians_run (hm : ∀ h, (linearize h).Measures jac)
    (hl : ∀ h, (linearize h).Recounts) (hpat : 0 < patience) (hc : c.scaling = .jacobian)
    (x : Vec ℝ n) (s : σ) :
    ScalesByJacobians (jacobianAt? c.toSettings p jac) State.toIterate
      (course nm c patience p rows linearize x s)
      (run nm c patience p rows linearize x s).1.toSummary := by
  obtain ⟨k₀, hend⟩ := exists_course_report nm c p rows x s hl hpat
  obtain ⟨hstage, hreport⟩ := hend k₀ (Nat.le_refl k₀)
  refine .of_largest ?_ ⟨k₀, hstage, congrArg Report.toSummary hreport⟩
  intro k t j hk
  by_cases h : n ≤ m
  · rcases hfault : c.fault? n with _ | e
    · rw [course_eq h hfault] at hk ⊢
      have hmo := scaled_course nm p (rows h) (hm h) (hl h) hc x s (c.budget patience n) k
      have hscale := hmo.scale
      rw [hk] at hscale
      exact hscale j
    · rw [course, dif_pos h, hfault] at hk
      cases hk
  · rw [course, dif_neg h] at hk
    cases hk

end Run

end LeastSquares

end NonlinearSolve

import NonlinearSolve.LeastSquares.Solve
import NonlinearSolve.Proofs.Course.Iterates
import NonlinearSolve.Proofs.ForwardDifference.Sweep
import NonlinearSolve.Proofs.TrustRegion.Subproblem

/-! # What the parts of a least squares method leave alone

A linearization changes the counts of the iterate and nothing else of it (`Linearize.Recounts`,
proved for the three linearizations). Hence the Levenberg-Marquardt method moves its iterate only by
accepting a step (`steady_method`) and keeps to its budget (`keepsBudget_method`). The trial steps
in turn leave the factorization alone; only below the diagonal of the triangular factor, where
nothing is read, do they leave another factor of their own (`State.SameFactorization`). -/

namespace NonlinearSolve

namespace LeastSquares

variable {σ α : Type} [Scalar α] {m r n : Nat}

/-- A step is accepted if its gain is acceptable. -/
def accepts (nm : Numerics α) (h : n ≤ r) : Acceptance (State α m r n) α m n :=
  fun st t f => (st.gain nm h t (nm.vecNorm f)).acceptable

/-- A linearization that leaves of the iterate all but the counts alone, and takes none of these
back. -/
def Linearize.Recounts (linearize : Linearize σ α m r n) : Prop :=
  ∀ (st : State α m r n) (s : σ), st.toIterate.Recounted (linearize st s).2.1.toIterate

section Linearizations

variable (nm : Numerics α)

/-- Factoring a Jacobian moves nothing but the counts of the iterate. -/
theorem recounted_factorize (h : n ≤ m) (st : State α m m n) (jac : Mat α m n) :
    st.toIterate.Recounted (st.factorize nm h jac).2.toIterate :=
  ⟨Nat.le_refl _, Nat.le_succ _, rfl⟩

/-- Settling a streamed factor moves nothing but the counts of the iterate. -/
theorem recounted_settle (st : State α m n n) :
    st.toIterate.Recounted (st.settle nm).2.toIterate := by
  rw [State.settle]
  split <;> exact ⟨Nat.le_refl _, Nat.le_succ _, rfl⟩

/-- Linearizing with the Jacobian of the problem moves nothing but the counts of the iterate. -/
theorem recounts_analytic (h : n ≤ m) (p : JacobianProblem σ α m n) :
    Linearize.Recounts (analytic nm h p) := by
  intro st s
  rw [analytic]
  rcases p.jacobian st.x s with ⟨e | jac, s'⟩
  · exact .refl _
  · exact recounted_factorize nm h st jac

/-- Linearizing by differences moves nothing but the counts of the iterate. -/
theorem recounts_numerical (h : n ≤ m) (c : Settings α) (p : Problem σ α m n) :
    Linearize.Recounts (numerical nm h c p) := by
  intro st s
  -- the unknowns come back from the sweep as they were
  have hx := ForwardDifference.dense_point p nm c.epsfcn st.x st.residuals st.factor s
  rw [numerical]
  rcases hsweep : ForwardDifference.dense p nm c.epsfcn st.x st.residuals st.factor s with
    ⟨e | _, x, a, s'⟩
  · rw [hsweep] at hx
    obtain rfl : x = st.x := hx
    exact .refl _
  · rw [hsweep] at hx
    obtain rfl : x = st.x := hx
    exact ⟨Nat.le_add_right _ _, Nat.le_succ _, rfl⟩

/-- Linearizing row by row moves nothing but the counts of the iterate. -/
theorem recounts_rowwise (p : RowProblem σ α m n) : Linearize.Recounts (rowwise nm p) := by
  intro st s
  rw [rowwise]
  rcases foldRows p st.x st.residuals (List.finRange m) (Mat.zero n n) (Vec.zero n) s with
    ⟨e | _, r, b, s'⟩
  · exact .refl _
  · exact recounted_settle nm { st with factor := r, rhs := b }

end Linearizations

/-! ### The parts of the method -/

/-- Two states that hold the same factorization: what is below the diagonal of the triangular factor
does not belong to it. -/
structure State.SameFactorization (st st' : State α m r n) : Prop where
  factor : st.factor.SameButLower st'.factor
  order : st'.order = st.order
  rhs : st'.rhs = st.rhs

namespace State.SameFactorization

variable {st st' st'' : State α m r n}

omit [Scalar α] in
/-- A state with the same factor, ordering and right hand side has the same factorization. -/
theorem of_eq (hfactor : st'.factor = st.factor) (horder : st'.order = st.order)
    (hrhs : st'.rhs = st.rhs) : st.SameFactorization st' :=
  ⟨hfactor ▸ .refl _, horder, hrhs⟩

omit [Scalar α] in
/-- A state has the same factorization as itself. -/
@[refl] theorem refl (st : State α m r n) : st.SameFactorization st := of_eq rfl rfl rfl

omit [Scalar α] in
/-- Having the same factorization is carried from state to state. -/
theorem trans (h : st.SameFactorization st') (h' : st'.SameFactorization st'') :
    st.SameFactorization st'' :=
  ⟨h.factor.trans h'.factor, h'.order.trans h.order, h'.rhs.trans h.rhs⟩

end State.SameFactorization

section Parts

variable (nm : Numerics α) (c : Config α) (h : n ≤ r) (st : State α m r n)

/-- Adapting the scaling leaves the position alone. -/
@[simp] theorem position_adapt (norms : Vec α n) :
    (st.adapt nm c h norms).2.position = st.position := by
  rw [State.adapt]
  split
  · exact st.toIterate.position_calibrate nm c.toSettings norms
  · exact st.toIterate.position_calibrate nm c.toSettings norms

/-- Adapting the scaling evaluates nothing. -/
@[simp] theorem evaluations_adapt (norms : Vec α n) :
    (st.adapt nm c h norms).2.evaluations = st.evaluations := by
  rw [State.adapt]
  split
  · exact st.toIterate.evaluations_calibrate nm c.toSettings norms
  · exact st.toIterate.evaluations_calibrate nm c.toSettings norms

/-- Adapting to a Jacobian does not change its factorization. -/
theorem factorization_adapt (norms : Vec α n) :
    st.SameFactorization (st.adapt nm c h norms).2 := by
  rw [State.adapt]
  split <;> exact .of_eq rfl rfl rfl

/-- The damped systems of a proposal leave the factorization as it is. -/
theorem factorization_propose : st.SameFactorization (st.propose nm h).2 :=
  ⟨Mat.sameButLower_withLeading h (Subproblem.sameUpper_solve nm (st.subproblem h) _), rfl, rfl⟩

variable {nm c h} {p : Problem σ α m n} {linearize : Linearize σ α m r n}

/-- The preparation of a round leaves the position alone and takes no evaluation back. -/
theorem Linearize.Recounts.prepare (hl : linearize.Recounts) (s : σ) :
    (LeastSquares.prepare nm c h p linearize st s).2.1.position = st.position ∧
      st.evaluations ≤ (LeastSquares.prepare nm c h p linearize st s).2.1.evaluations := by
  rw [LeastSquares.prepare]
  split
  · rcases st.toIterate.reportIfDue c.toSettings p s with ⟨e | _, s'⟩
    · exact ⟨rfl, Nat.le_refl _⟩
    · -- the adaptation after the linearization does not concern the position
      have hrec := hl st s'
      simp only
      rcases hlin : linearize st s' with ⟨e | norms, st', s''⟩
      · rw [hlin] at hrec
        exact ⟨hrec.position_eq, hrec.evaluations⟩
      · rw [hlin] at hrec
        simp only [position_adapt, evaluations_adapt]
        exact ⟨hrec.position_eq, hrec.evaluations⟩
  · exact ⟨rfl, Nat.le_refl _⟩

variable (nm c h)

/-- A gain changes nothing but the radius and the damping. -/
theorem exists_resize_eq (g : Gain α) (length norm1 : α) :
    ∃ radius damping, st.resize g length norm1 = { st with radius, damping } := by
  rw [State.resize]
  split
  · exact ⟨_, _, rfl⟩
  · split
    · exact ⟨_, _, rfl⟩
    · exact ⟨st.radius, st.damping, rfl⟩

/-- Resizing the trust region leaves the position alone. -/
@[simp] theorem position_resize (g : Gain α) (length norm1 : α) :
    (st.resize g length norm1).position = st.position := by
  obtain ⟨radius, damping, heq⟩ := exists_resize_eq st g length norm1
  rw [heq]
  rfl

/-- Resizing the trust region evaluates nothing. -/
@[simp] theorem evaluations_resize (g : Gain α) (length norm1 : α) :
    (st.resize g length norm1).evaluations = st.evaluations := by
  obtain ⟨radius, damping, heq⟩ := exists_resize_eq st g length norm1
  rw [heq]

/-- The state after a trial step to the proposal `t`, where the residuals are `f`. -/
def State.after (t : Proposal α n) (f : Vec α m) : State α m r n :=
  let st' := st.resize (st.gain nm h t (nm.vecNorm f)) t.length (nm.vecNorm f)
  if accepts nm h st t f then
    { st' with toIterate := st'.toIterate.accept nm t.point f (nm.vecNorm f), fresh := true }
  else { st' with fresh := false }

/-- A verdict is the end with zero residuals, if the step is accepted, or that of the tests on the
state after the step. -/
theorem judge_eq (budget : Nat) (t : Proposal α n) (f : Vec α m) :
    st.judge nm c budget h t f =
      (if accepts nm h st t f && (nm.stopAtZero && nm.vecNorm f == 0) then some .residualsZero
        else (st.after nm h t f).stop? nm c budget (st.gain nm h t (nm.vecNorm f)),
      st.after nm h t f) := by
  rw [State.judge, State.after]
  -- only an accepted step can end the solve with zero residuals
  rcases hacc : accepts nm h st t f with _ | _
  · rw [accepts] at hacc
    simp only [hacc, Bool.false_and, Bool.false_eq_true, if_false]
  · rw [accepts] at hacc
    simp only [hacc, Bool.true_and, if_true, Iterate.accept]
    by_cases hzero : (nm.stopAtZero && nm.vecNorm f == 0) = true
    · simp only [hzero, if_true]
    · simp only [hzero, Bool.false_eq_true, if_false]

/-- Whatever the verdict is, the state is that after the trial step. -/
theorem judge_state (budget : Nat) (t : Proposal α n) (f : Vec α m) :
    (st.judge nm c budget h t f).2 = st.after nm h t f := by
  rw [judge_eq]

/-- A trial step moves to the proposed point if it is accepted, and nowhere otherwise. -/
theorem position_after (t : Proposal α n) (f : Vec α m) :
    (st.after nm h t f).position =
      if accepts nm h st t f then ⟨t.point, f, nm.vecNorm f, st.iteration + 1⟩
      else st.position := by
  have hres := position_resize st (st.gain nm h t (nm.vecNorm f)) t.length (nm.vecNorm f)
  rw [State.after]
  by_cases hacc : accepts nm h st t f
  · rw [if_pos hacc, if_pos hacc, ← show _ = st.iteration from congrArg Position.iteration hres]
    rfl
  · rw [if_neg hacc, if_neg hacc]
    exact hres

/-- Deciding on a step evaluates nothing. -/
theorem evaluations_after (t : Proposal α n) (f : Vec α m) :
    (st.after nm h t f).evaluations = st.evaluations := by
  have hres := evaluations_resize st (st.gain nm h t (nm.vecNorm f)) t.length (nm.vecNorm f)
  rw [State.after]
  split
  · exact hres
  · exact hres

/-- The verdict on a trial step leaves the factorization alone. -/
theorem factorization_after (t : Proposal α n) (f : Vec α m) :
    st.SameFactorization (st.after nm h t f) := by
  obtain ⟨radius, damping, heq⟩ :=
    exists_resize_eq st (st.gain nm h t (nm.vecNorm f)) t.length (nm.vecNorm f)
  rw [State.after, heq]
  split
  · exact .of_eq rfl rfl rfl
  · exact .of_eq rfl rfl rfl

/-- Resizing the trust region leaves the scaling alone. -/
theorem scale_resize (g : Gain α) (length norm1 : α) :
    (st.resize g length norm1).scale = st.scale := by
  obtain ⟨radius, damping, heq⟩ := exists_resize_eq st g length norm1
  rw [heq]

/-- Deciding on a step leaves the scaling alone. -/
theorem scale_after (t : Proposal α n) (f : Vec α m) :
    (st.after nm h t f).scale = st.scale := by
  rw [State.after]
  split
  · exact scale_resize st _ _ _
  · exact scale_resize st _ _ _

/-- The iterate is new after a step that is accepted. -/
theorem fresh_after (t : Proposal α n) (f : Vec α m) :
    (st.after nm h t f).fresh = accepts nm h st t f := by
  rw [State.after]
  by_cases hacc : accepts nm h st t f = true
  · rw [if_pos hacc, hacc]
  · rw [if_neg hacc, Bool.eq_false_iff.2 hacc]

variable {nm h st} in
/-- A rejected step changes at most the radius of the iterate. -/
theorem iterate_after_of_rejected {t : Proposal α n} {f : Vec α m}
    (hrej : accepts nm h st t f = false) :
    ∃ radius, (st.after nm h t f).toIterate = { st.toIterate with radius } := by
  obtain ⟨radius, damping, heq⟩ :=
    exists_resize_eq st (st.gain nm h t (nm.vecNorm f)) t.length (nm.vecNorm f)
  rw [State.after, hrej, if_neg Bool.false_ne_true, heq]
  exact ⟨radius, rfl⟩

/-- The solve goes on only as long as there is budget left. -/
theorem lt_budget_of_stop? {budget : Nat} {g : Gain α} (hgo : st.stop? nm c budget g = none) :
    st.evaluations < budget := by
  rw [State.stop?] at hgo
  by_contra hle
  -- without budget every branch of the tests has a reason to end
  rw [if_pos (show budget ≤ st.evaluations from Nat.not_lt.1 hle)] at hgo
  repeat' split at hgo
  all_goals cases hgo

end Parts

/-! ### The method -/

section Method

variable {nm : Numerics α} {c : Config α} {budget : Nat} {h : n ≤ r} {p : Problem σ α m n}
  {linearize : Linearize σ α m r n}

/-- The Levenberg-Marquardt method moves its iterate only by accepting a step. -/
theorem steady_method (hl : linearize.Recounts) :
    (method nm c budget h p linearize).Steady (accepts nm h) nm where
  start _ := rfl
  prepare st s := (hl.prepare st s).1
  propose _ := rfl
  judge st t f := by
    change (st.judge nm c budget h t f).2.position = _
    rw [judge_state]
    exact position_after nm h st t f

/-- The Levenberg-Marquardt method keeps to its budget. -/
theorem keepsBudget_method (hl : linearize.Recounts) :
    (method nm c budget h p linearize).KeepsBudget budget where
  prepare st s := (hl.prepare st s).2
  propose _ := rfl
  judge st t f := by
    change (st.judge nm c budget h t f).2.evaluations = _
    rw [judge_state]
    exact evaluations_after nm h st t f
  goOn st t f hgo := by
    change (st.judge nm c budget h t f).1 = none at hgo
    rw [judge_eq] at hgo
    change st.evaluations < budget
    rw [← evaluations_after nm h st t f]
    split at hgo
    · cases hgo
    · exact lt_budget_of_stop? nm c _ hgo

end Method

/-- If the settings have no fault, then neither have those that all methods share. -/
theorem Config.settings_fault? {c : Config α} (hc : c.fault? n = none) :
    c.toSettings.fault? n = none := by
  simp only [Config.fault?, Option.orElse_eq_orElse, Option.orElse_eq_or,
    Option.or_eq_none_iff] at hc
  exact hc.2.2.2.2

/-- Settings without fault have no tolerance that is negative. -/
theorem Config.gtol_nonneg {c : Config α} (hc : c.fault? n = none) : 0 ≤ c.gtol := by
  simp only [Config.fault?, Option.orElse_eq_orElse, Option.orElse_eq_or,
    Option.or_eq_none_iff] at hc
  obtain ⟨-, -, -, hgtol, -⟩ := hc
  by_contra hneg
  rw [Tolerance.fault?, if_neg hneg] at hgtol
  cases hgtol

/-- Settings without fault are settings for at least one unknown. -/
theorem Config.pos_of_fault? {c : Config α} (hc : c.fault? n = none) : 0 < n := by
  simp only [Config.fault?, Option.orElse_eq_orElse, Option.orElse_eq_or,
    Option.or_eq_none_iff] at hc
  refine Nat.pos_of_ne_zero ?_
  intro hzero
  rw [if_pos hzero] at hc
  cases hc.1

/-! ### Solves -/

section Run

variable {nm : Numerics α} {c : Config α} {patience : Nat} {p : Problem σ α m n}
  {rows : n ≤ m → n ≤ r} {linearize : n ≤ m → Linearize σ α m r n} {x : Vec α n} {s : σ}

/-- With proper input, a solve is one by the method. -/
theorem run_eq (h : n ≤ m) (hc : c.fault? n = none) :
    run nm c patience p rows linearize x s =
      let budget := c.budget patience n
      let sol := (method nm c budget (rows h) p (linearize h)).run nm c.toSettings budget p x s
      (sol.2.1.report sol.1, sol.2.2) := by
  rw [run, dif_pos h, hc]

variable (rows linearize) in
/-- In every solve of a problem that computes the residuals `f` the iterate is tracked. -/
theorem tracks_run (h : n ≤ m) (hl : (linearize h).Recounts) (hpat : 0 < patience)
    (hc : c.fault? n = none) {f : Vec α n → Vec α m} (hp : p.Computes f) {v : Vec α m} {s₁ : σ}
    (hfirst : p.evaluate x s = (.ok v, s₁)) :
    (method nm c (c.budget patience n) (rows h) p (linearize h)).Tracks (accepts nm (rows h)) nm
      c.toSettings p f x s (run nm c patience p rows linearize x s).1.toSummary := by
  have hpos : 0 < c.budget patience n := Settings.budget_pos (Config.settings_fault? hc) hpat
  simp only [run_eq h hc, Method.run_eq]
  exact (steady_method hl).tracks (keepsBudget_method hl) hpos hp hfirst

end Run

end LeastSquares

end NonlinearSolve

import NonlinearSolve.Proofs.Drivers.EarlyEnd
import NonlinearSolve.Proofs.Equations.Broyden
import NonlinearSolve.Proofs.TrustRegion.DoglegPath

/-! # The last step of a solve

A solve of a system of equations that is not aborted ends with a trial step (`lastStep_run`). Such a
step moves the iterate if it is accepted, but the factorization is left as it was. So the product
`Qᵀ f` that is reported is that for the residuals before the step, and it is that for the reported
residuals exactly if the step was rejected (`Report.Lags`, `lags_after`). -/

namespace NonlinearSolve

namespace Equations

open Matrix Scalar

variable {σ : Type} {n : Nat}

/-! ### The move that ends a solve -/

/-- The trial step `t`, proposed at the moment `k` and with the residuals `v` at its point, is the
last move of a solve with the report `rep`. -/
structure LastStep {α : Type} [Scalar α] (course : Nat → Moment σ α n (State α n))
    (p : Problem σ α n n) (rep : Report α n) (k : Nat) (t : Proposal α n) (v : Vec α n) : Prop where
  stage : (course k).stage = .proposed t
  evaluate : ∃ s, p.evaluate t.point (course k).world = (.ok v, s)
  ended : (course (k + 1)).stage = .ended rep.termination
  reported : (course (k + 1)).state.report rep.termination = rep

section Moves

variable {α : Type} [Scalar α] {nm : Numerics α} {c : Config α} {budget : Nat}
  {p : Problem σ α n n} {linearize : Linearize σ α n}

/-- A preparation ends a solve only with an abort. -/
theorem user_of_prepare {st : State α n} {s : σ} {reason : Termination}
    (hend : (prepare nm c p linearize st s).1 = some reason) : ∃ e, reason = .user e := by
  rw [prepare] at hend
  rcases hrefresh : refresh nm c linearize st s with ⟨e | _, st', s'⟩
  · rw [hrefresh] at hend
    exact ⟨e, (Option.some.inj hend).symm⟩
  · simp only [hrefresh] at hend
    rcases hreport : st'.toIterate.reportIfDue c.toSettings p s' with ⟨e | _, s''⟩
    · rw [hreport] at hend
      exact ⟨e, (Option.some.inj hend).symm⟩
    · rw [hreport] at hend
      cases hend

/-- A move that ends a solve without an abort is a trial step. -/
theorem exists_trial_of_ended {mo : Moment σ α n (State α n)} {reason : Termination}
    (hgoes : ∀ r, mo.stage ≠ .ended r)
    (hend : ((method nm c budget p linearize).next (accepts nm) p mo).stage = .ended reason)
    (huser : ∀ e, reason ≠ .user e) :
    ∃ t v s, mo.stage = .proposed t ∧ p.evaluate t.point mo.world = (.ok v, s) ∧
      ((method nm c budget p linearize).next (accepts nm) p mo).state = mo.state.after nm t v := by
  obtain ⟨stage, st, s, b⟩ := mo
  cases stage with
  | ready =>
    rw [Method.next_ready] at hend
    obtain ⟨e, he⟩ := user_of_prepare (Stage.ofPreparation_eq_ended_iff.1 hend)
    exact absurd he (huser e)
  | prepared => cases hend
  | proposed t =>
    rcases heval : p.evaluate t.point s with ⟨e | v, s'⟩
    · rw [Method.next_proposed_of_error heval] at hend
      cases hend
      exact absurd rfl (huser e)
    · refine ⟨t, v, s', rfl, heval, ?_⟩
      rw [Method.next_proposed_of_ok heval] at hend ⊢
      change (st.judge nm c budget t v).2 = st.after nm t v
      have hverdict : (st.judge nm c budget t v).1 = some reason :=
        Stage.ofVerdict_eq_ended_iff.1 hend
      rw [judge_eq] at hverdict ⊢
      split at hverdict
      · rfl
      · cases hverdict
  | ended r => exact absurd rfl (hgoes r)

end Moves

section Run

variable {α : Type} [Scalar α] {nm : Numerics α} {c : Config α} {patience : Nat}
  {p : Problem σ α n n} {linearize : Linearize σ α n} {x : Vec α n} {s : σ}

/-- Where a step is proposed the settings are proper. -/
theorem fault?_of_proposed {k : Nat} {t : Proposal α n}
    (hk : (course nm c patience p linearize x s k).stage = .proposed t) :
    c.fault? n = none := by
  rcases hc : c.fault? n with _ | e
  · rfl
  · rw [course, hc] at hk
    cases hk

/-- A solve that tries a step and is not aborted ends with a trial step. -/
theorem lastStep_run (hl : linearize.Recounts) (hpat : 0 < patience) {j : Nat} {u : Proposal α n}
    (hj : (course nm c patience p linearize x s j).stage = .proposed u)
    (huser : ∀ e, (run nm c patience p linearize x s).1.termination ≠ .user e) :
    ∃ k t v, LastStep (course nm c patience p linearize x s) p
        (run nm c patience p linearize x s).1 k t v ∧
      (course nm c patience p linearize x s (k + 1)).state =
        (course nm c patience p linearize x s k).state.after nm t v := by
  have hc := fault?_of_proposed hj
  obtain ⟨k₀, hend⟩ := exists_course_report nm c p x s hl hpat
  rw [course_eq hc] at hj hend ⊢
  have hgoes : ∀ r, ((method nm c (c.budget patience n) p linearize).course (accepts nm) nm
      c.toSettings p x s j).stage ≠ .ended r := by
    intro r hr
    rw [hj] at hr
    cases hr
  obtain ⟨k, -, hk, hlast⟩ := Method.exists_last_move hgoes (hend k₀ le_rfl).1
  have hreport := (hend (k + 1 + k₀) (Nat.le_add_left _ _)).2
  rw [Method.course_eq_of_stage (Nat.le_add_right _ _) hlast] at hreport
  have hnext := hlast
  rw [Method.course_succ] at hnext
  obtain ⟨t, v, s', hstage, heval, hstate⟩ := exists_trial_of_ended hk hnext huser
  refine ⟨k, t, v, ⟨hstage, ⟨s', heval⟩, hlast, hreport⟩, ?_⟩
  rw [Method.course_succ]
  exact hstate

end Run

/-! ### The reported product -/

/-- The report shows an orthogonal matrix `Q` and the product `Qᵀ f` for the residuals `f` before
the last step. It is the product for the reported residuals exactly if that step was rejected. -/
structure Report.Lags (rep : Report ℝ n) (f : Vec ℝ n) (accepted : Bool) : Prop where
  orthogonal : rep.q.toMatrixᵀ * rep.q.toMatrix = 1
  rhs : rep.rhs.get = rep.q.toMatrixᵀ *ᵥ f.get
  rhs_iff : rep.rhs.get = rep.q.toMatrixᵀ *ᵥ rep.residuals.get ↔ accepted = false

section Exact

variable {ε τ : ℝ} {z : Bool} {c : Config ℝ} {patience : Nat} {p : Problem σ ℝ n n}
  {linearize : Linearize σ ℝ n} {x : Vec ℝ n} {s : σ}

/-- A step leaves the factors and the product alone if the solve ends with it. -/
theorem lags_after {st : State ℝ n} {b : Matrix (Fin n) (Fin n) ℝ} (hst : Represents st b)
    (hnorm : st.residualNorm = (Numerics.exact ε τ z).vecNorm st.residuals) (t : Proposal ℝ n)
    (v : Vec ℝ n) (reason : Termination) :
    ((st.after (Numerics.exact ε τ z) t v).report reason).Lags st.residuals
      (accepts (Numerics.exact ε τ z) st t v) := by
  obtain ⟨hq, -, hrhs, -⟩ := after_factors (Numerics.exact ε τ z) st t v
  have hres := after_residuals (Numerics.exact ε τ z) st t v
  refine ⟨?_, ?_, ?_⟩
  all_goals simp only [State.report, Iterate.summary, hq, hrhs, hres]
  · exact hst.orthogonal
  · exact hst.rhs
  rw [hst.rhs]
  cases hacc : accepts (Numerics.exact ε τ z) st t v with
  | false => exact iff_of_true rfl rfl
  | true =>
    -- an accepted step has smaller residuals, and the orthogonal factor tells them apart
    refine iff_of_false ?_ (by decide)
    intro hsame
    rw [if_pos rfl] at hsame
    have hinverse : st.q.toMatrix * st.q.toMatrixᵀ = 1 := mul_eq_one_comm.1 hst.orthogonal
    have heq : st.residuals.get = v.get := by
      have hback := congrArg (st.q.toMatrix *ᵥ ·) hsame
      simpa only [mulVec_mulVec, hinverse, one_mulVec] using hback
    have hlt := State.lt_of_acceptable hacc
    rw [hnorm, Vec.ext fun i => congrFun heq i] at hlt
    exact lt_irrefl _ hlt

/-- A solve that tries a step and is not aborted ends with a trial step, and its report lags behind
it if it is accepted. If the problem computes a function, the reported residuals are its value at
the reported iterate all the same. -/
def ReportsLastStep (nm : Numerics ℝ) (course : Nat → Moment σ ℝ n (State ℝ n))
    (p : Problem σ ℝ n n) (rep : Report ℝ n) : Prop :=
  ∀ f, p.Computes f → (∃ j t, (course j).stage = .proposed t) →
    (∀ e, rep.termination ≠ .user e) →
    rep.residuals = f rep.x ∧
      ∃ k t v, LastStep course p rep k t v ∧
        rep.Lags (course k).state.residuals (accepts nm (course k).state t v)

/-- All solves report on their last step. -/
theorem reportsLastStep_run (hl : linearize.Recounts) (hpat : 0 < patience) :
    ReportsLastStep (Numerics.exact ε τ z)
      (course (Numerics.exact ε τ z) c patience p linearize x s) p
      (run (Numerics.exact ε τ z) c patience p linearize x s).1 := by
  rintro f hp ⟨j, u, hj⟩ huser
  have hc := fault?_of_proposed hj
  set nm := Numerics.exact ε τ z
  have hgoes : ∀ k t, (course nm c patience p linearize x s k).stage = .proposed t →
      ∀ r, (course nm c patience p linearize x s k).stage ≠ .ended r := by
    intro k t hk r hr
    rw [hk] at hr
    cases hr
  constructor
  · have hj' := hgoes j u hj
    rw [course_eq hc] at hj'
    obtain ⟨w, s', hfirst⟩ := Method.exists_evaluate_of_course hj'
    exact (tracks_run hl hpat hc hp hfirst).summary_residuals
  · obtain ⟨k, t, v, hlast, hstate⟩ := lastStep_run hl hpat hj huser
    have hholds : Holds nm
        (approximationOf nm c patience p linearize linearize.jacobian x s k)
        (course nm c patience p linearize x s k) := holds_course k
    rw [Holds, hlast.stage] at hholds
    have hk := hgoes k t hlast.stage
    have hnorm : (course nm c patience p linearize x s k).state.residualNorm =
        nm.vecNorm (course nm c patience p linearize x s k).state.residuals := by
      rw [course_eq hc] at hk ⊢
      exact (steady_method hl).residualNorm_course k hk
    refine ⟨k, t, v, hlast, ?_⟩
    rw [← hlast.reported, hstate]
    exact lags_after hholds.2.1 hnorm t v _

/-! ### A step to a zero -/

/-- A step to a zero is accepted if it was predicted to lead there. -/
theorem accepts_of_zero {st : State ℝ n} {t : Proposal ℝ n} (hpos : 0 < st.residualNorm)
    (hmodel : (st.model t.step).get = 0) :
    accepts (Numerics.exact ε τ z) st t (Vec.zero n) = true := by
  have hzero : st.model t.step = Vec.zero n :=
    Vec.ext fun i => (congrFun hmodel i).trans (Vec.zero_apply i).symm
  have hreduction : ∀ otherwise : ℝ, reduction otherwise st.residualNorm 0 = 1 := by
    intro otherwise
    rw [reduction, if_pos hpos, zero_div, square, mul_zero, sub_zero]
  simp only [accepts, State.gain, hzero, Numerics.vecNorm_exact_zero, hreduction, Gain.acceptable]
  norm_num

/-- The triangular factor of a regular matrix has no zeros on its diagonal. -/
theorem Represents.diag_ne_zero {st : State ℝ n} {b : Matrix (Fin n) (Fin n) ℝ}
    (h : Represents st b) (hb : b.det ≠ 0) (j : Fin n) : st.r j j ≠ 0 := by
  have hproduct := congrArg Matrix.det h.product
  rw [st.triangle_eq, det_mul, det_of_isUpperTriangular (Dogleg.isUpperTriangular_upper st.r)]
    at hproduct
  have hdiag : ∏ i, st.r.upper i i ≠ 0 := right_ne_zero_of_mul (hproduct.trans_ne hb)
  exact Finset.prod_ne_zero_iff.1 hdiag j (Finset.mem_univ j)

section Regular

variable {st : State ℝ n} {b : Matrix (Fin n) (Fin n) ℝ} (h : Represents st b)
  (hregular : Dogleg.Regular st.r st.scale st.radius)

include h hregular

/-- The Gauss-Newton step solves the linear system of the represented matrix. -/
theorem Represents.mulVec_gaussNewton :
    b *ᵥ (Dogleg.gaussNewton (Numerics.exact ε τ z) st.r st.rhs).get = st.residuals.get := by
  have hinverse : st.q.toMatrix * st.q.toMatrixᵀ = 1 := mul_eq_one_comm.1 h.orthogonal
  rw [← h.product, st.triangle_eq, ← mulVec_mulVec, hregular.mulVec_gaussNewton, h.rhs,
    mulVec_mulVec, hinverse, one_mulVec]

omit h in
/-- If the Gauss-Newton step is not too long, then it is the step, and the linear model predicts a
zero. -/
theorem propose_of_le (hle : Secular.length (st.scale.get *
      (Dogleg.gaussNewton (Numerics.exact ε τ z) st.r st.rhs).get) ≤ st.radius) :
    (st.propose (Numerics.exact ε τ z)).1.step.get =
        -(Dogleg.gaussNewton (Numerics.exact ε τ z) st.r st.rhs).get ∧
      (st.model (st.propose (Numerics.exact ε τ z)).1.step).get = 0 := by
  have hstep : (st.propose (Numerics.exact ε τ z)).1.step.get =
      -(Dogleg.gaussNewton (Numerics.exact ε τ z) st.r st.rhs).get := by
    change ((dogleg _ st.r st.scale st.rhs st.radius).map fun x => -x).get = _
    rw [dogleg_of_le hle]
    exact funext fun j => Vec.map_apply _ _ j
  rw [model_get, hstep, mulVec_neg, hregular.mulVec_gaussNewton, add_neg_cancel]
  exact ⟨rfl, rfl⟩

end Regular

omit z in
/-- An accepted step to a zero is the last one. -/
theorem report_of_zero (hl : linearize.Recounts) (hpat : 0 < patience) {k : Nat} {t : Proposal ℝ n}
    (hstage : (course (Numerics.exact ε τ false) c patience p linearize x s k).stage = .proposed t)
    {s' : σ} (heval : p.evaluate t.point
      (course (Numerics.exact ε τ false) c patience p linearize x s k).world =
        (.ok (Vec.zero n), s'))
    (hacc : accepts (Numerics.exact ε τ false)
      (course (Numerics.exact ε τ false) c patience p linearize x s k).state t (Vec.zero n) =
        true) :
    (run (Numerics.exact ε τ false) c patience p linearize x s).1 =
      ((course (Numerics.exact ε τ false) c patience p linearize x s k).state.after
        (Numerics.exact ε τ false) t (Vec.zero n)).report (.converged false true) := by
  have hc := fault?_of_proposed hstage
  obtain ⟨k₀, hend⟩ := exists_course_report (Numerics.exact ε τ false) c p x s hl hpat
  rw [course_eq hc] at hstage heval hacc hend ⊢
  set nm := Numerics.exact ε τ false
  set mo :=
    (method nm c (c.budget patience n) p linearize).course (accepts nm) nm c.toSettings p x s
    with hmo
  have hzero : ((mo k).state.after nm t (Vec.zero n)).residualNorm = 0 := by
    have hposition := position_after nm (mo k).state t (Vec.zero n)
    rw [hacc, if_pos rfl] at hposition
    exact (congrArg Position.residualNorm hposition).trans
      (Numerics.vecNorm_exact_zero ε τ false n)
  have hjudge : (mo k).state.judge nm c (c.budget patience n) t (Vec.zero n) =
      (some (.converged false true), (mo k).state.after nm t (Vec.zero n)) := by
    rw [judge_eq, stop?_of_zero _ _ _ _ hzero]
  have hlast : (mo (k + 1)).stage = .ended (.converged false true) ∧
      (mo (k + 1)).state = (mo k).state.after nm t (Vec.zero n) := by
    rw [hmo, Method.course_succ, ← hmo, Method.next, hstage]
    simp only [heval]
    change Stage.ofVerdict ((mo k).state.judge nm c _ t (Vec.zero n)).1 = _ ∧
      ((mo k).state.judge nm c _ t (Vec.zero n)).2 = _
    rw [hjudge]
    exact ⟨rfl, rfl⟩
  have hsame : mo (k + 1 + k₀) = mo (k + 1) :=
    Method.course_eq_of_stage (Nat.le_add_right _ _) hlast.1
  obtain ⟨htermination, hreport⟩ := hend (k + 1 + k₀) (Nat.le_add_left _ _)
  rw [hsame, hlast.1] at htermination
  rw [hsame, hlast.2, ← Stage.ended.inj htermination] at hreport
  exact hreport.symm

end Exact

end Equations

end NonlinearSolve

import NonlinearSolve.Proofs.LeastSquares.LastJacobian
import NonlinearSolve.Proofs.LeastSquares.Rowwise
import NonlinearSolve.Proofs.TrustRegion.Steps

/-! # Soundness of a minimization

In exact arithmetic a trial step is made only where it can be: with residuals and a gradient that
are not zero, in a trust region with a positive radius and positive scaling factors
(`State.Sound`). A preparation that does not end the solve provides for that
(`sound_prepare`), since the solve ends with a gradient of zero, and a trial step keeps it, since no
step is zero (`sound_propose`, `sound_after`). So every moment of a minimization is sound
(`soundAt_opening`, `soundAt_next`). -/

namespace NonlinearSolve

namespace LeastSquares

open Matrix Scalar

variable {σ : Type} {m r n : Nat} {ε τ : ℝ} {z : Bool}

/-! ### Linearizations -/

/-- A linearization that leaves the damping alone. If it is completed, it comes with a tapered
factor and with norms that are not negative. -/
structure Linearize.Tapers (linearize : Linearize σ ℝ m r n) (h : n ≤ r) : Prop where
  damping (st : State ℝ m r n) (s : σ) : (linearize st s).2.1.damping = st.damping
  norms_nonneg (st : State ℝ m r n) (s : σ) (norms : Vec ℝ n) : (linearize st s).1 = .ok norms →
    ∀ j, 0 ≤ norms j
  tapered (st : State ℝ m r n) (s : σ) (norms : Vec ℝ n) : (linearize st s).1 = .ok norms →
    ((linearize st s).2.1.factor.leading h).Tapered

/-- The norms of the columns that a factorization reports are not negative. -/
theorem factor_colNorm_nonneg (pivot : Bool) (a : Mat ℝ r n) (j : Fin n) :
    0 ≤ (QR.factor (Numerics.exact ε τ z) pivot a).colNorm j := by
  rw [QR.factor_colNorm, Vec.of_apply]
  exact Numerics.vecNorm_exact_nonneg ε τ z _

/-- The norms of the columns of a settled factor are not negative. -/
theorem settle_norms_nonneg (st : State ℝ m n n) (j : Fin n) :
    0 ≤ (st.settle (Numerics.exact ε τ z)).1 j := by
  unfold State.settle
  simp only
  split
  · exact factor_colNorm_nonneg true _ j
  · rw [Vec.of_apply, Numerics.norm_take_exact]
    exact Real.sqrt_nonneg _

/-- A regular triangle is tapered, and another one is factored once more. -/
theorem tapered_settle (st : State ℝ m n n) :
    ((st.settle (Numerics.exact ε τ z)).2.factor.leading le_rfl).Tapered := by
  unfold State.settle
  simp only
  split
  · exact QR.tapered_factor ε τ z le_rfl _
  · next hregular =>
    have hself : st.factor.leading le_rfl = st.factor :=
      Mat.ext fun i j => Mat.leading_apply le_rfl st.factor i j
    rw [hself]
    exact Mat.tapered_of_firstZero (Nat.not_lt.1 hregular)

section Linearizations

variable (ε τ z)

/-- Linearizing with the Jacobian of the problem leaves a tapered factor. -/
theorem tapers_analytic (h : n ≤ m) (p : JacobianProblem σ ℝ m n) :
    Linearize.Tapers (analytic (Numerics.exact ε τ z) h p) h := by
  refine ⟨?_, ?_, ?_⟩
  all_goals
    intro st s
    unfold analytic
    rcases p.jacobian st.x s with ⟨e | a, s'⟩
  · rfl
  · rfl
  · exact fun norms hok => by cases hok
  · rintro norms ⟨⟩
    exact factor_colNorm_nonneg true a
  · exact fun norms hok => by cases hok
  · exact fun _ _ => QR.tapered_factor ε τ z h a

/-- Linearizing by differences leaves a tapered factor. -/
theorem tapers_numerical (h : n ≤ m) (c : Settings ℝ) (p : Problem σ ℝ m n) :
    Linearize.Tapers (numerical (Numerics.exact ε τ z) h c p) h := by
  refine ⟨?_, ?_, ?_⟩
  all_goals
    intro st s
    unfold numerical
    rcases ForwardDifference.dense p (Numerics.exact ε τ z) c.epsfcn st.x st.residuals st.factor s
      with ⟨e | _, x, a, s'⟩
  · rfl
  · rfl
  · exact fun norms hok => by cases hok
  · rintro norms ⟨⟩
    exact factor_colNorm_nonneg true a
  · exact fun norms hok => by cases hok
  · exact fun _ _ => QR.tapered_factor ε τ z h a

/-- Linearizing row by row leaves a tapered factor, since it pivots again at a zero on the diagonal.
-/
theorem tapers_rowwise (p : RowProblem σ ℝ m n) :
    Linearize.Tapers (rowwise (Numerics.exact ε τ z) p) le_rfl := by
  refine ⟨?_, ?_, ?_⟩
  all_goals
    intro st s
    unfold rowwise
    rcases foldRows p st.x st.residuals (List.finRange m) (Mat.zero n n) (Vec.zero n) s with
      ⟨e | _, q, b, s'⟩
  · rfl
  · simp only [State.settle]
    split <;> rfl
  · exact fun norms hok => by cases hok
  · rintro norms ⟨⟩
    exact settle_norms_nonneg _
  · exact fun norms hok => by cases hok
  · exact fun _ _ => tapered_settle _

end Linearizations

/-! ### States -/

/-- A state in which a step can be proposed. -/
structure State.Sound (h : n ≤ r) (st : State ℝ m r n) : Prop where
  posed : ∃ eqs, (st.subproblem h).Posed eqs
  residualNorm_pos : 0 < st.residualNorm
  damping_nonneg : 0 ≤ st.damping

/-- The trust region of a sound state has a positive radius. -/
theorem State.Sound.radius_pos {h : n ≤ r} {st : State ℝ m r n} (hst : st.Sound h) :
    0 < st.radius := by
  obtain ⟨_, hposed⟩ := hst.posed
  exact hposed.radius_pos

/-- A state in which the next thing to do is to linearize. In the first iteration the radius has
still to be set. -/
structure State.Waiting (st : State ℝ m r n) : Prop where
  proper : st.Proper
  radius_pos : st.iteration = 1 ∨ 0 < st.radius
  residualNorm_nonneg : 0 ≤ st.residualNorm
  damping_nonneg : 0 ≤ st.damping

/-- The radius and the damping may change, as long as they keep their signs. -/
theorem State.Sound.update {h : n ≤ r} {st : State ℝ m r n} (hst : st.Sound h)
    {radius damping : ℝ} (hradius : 0 < radius) (hdamping : 0 ≤ damping) :
    ({ st with radius := radius, damping := damping } : State ℝ m r n).Sound h := by
  obtain ⟨⟨eqs, hposed⟩, hres, -⟩ := hst
  exact ⟨⟨eqs, hposed.factored, hposed.tapered, hposed.rhs_ne_zero, hposed.scale_pos, hradius⟩,
    hres, hdamping⟩

/-- A linearization leaves the state as it was, but for the factorization and the counts. -/
theorem State.Waiting.recount {st st' : State ℝ m r n} (hst : st.Waiting)
    (hrec : st.toIterate.Recounted st'.toIterate) (hdamping : st'.damping = st.damping) :
    st'.Waiting := by
  obtain ⟨it, factor, order, rhs, cosine, damping, fresh⟩ := st'
  obtain ⟨-, -, heq⟩ := hrec
  simp only at heq hdamping
  rw [heq, hdamping]
  exact ⟨⟨hst.proper.scale_pos, hst.proper.radius_nonneg⟩, hst.radius_pos, hst.residualNorm_nonneg,
    hst.damping_nonneg⟩

/-! ### Preparations -/

section Prepare

variable {c : Config ℝ} (hc : c.fault? n = none) {h : n ≤ r} {st : State ℝ m r n}

include hc

/-- If the largest cosine is above the tolerance, then neither the residuals nor the gradient are
zero. -/
theorem sound_adapt (hst : st.Waiting) {eqs : NormalEquations n}
    (hfactored : eqs.Factored (st.factor.leading h).upper st.order st.rhs.get)
    (htapered : (st.factor.leading h).Tapered) {norms : Vec ℝ n} (hnorms : ∀ j, 0 ≤ norms j)
    (hgo : (st.adapt (Numerics.exact ε τ z) c h norms).1 = none) :
    (st.adapt (Numerics.exact ε τ z) c h norms).2.Sound h := by
  have hbound := (Settings.of_fault? (Config.settings_fault? hc)).1
  have hproper := hst.proper.calibrate (ε := ε) (τ := τ) (z := z) (c := c.toSettings) hbound hnorms
  have hradius := Iterate.Proper.radius_pos_calibrate (ε := ε) (τ := τ) (z := z)
    (c := c.toSettings) hbound hst.radius_pos norms
  have hresidual : (st.toIterate.calibrate (Numerics.exact ε τ z) c.toSettings norms).residualNorm =
      st.residualNorm :=
    congrArg Position.residualNorm (st.toIterate.position_calibrate _ c.toSettings norms)
  unfold State.adapt at hgo ⊢
  set st₁ : State ℝ m r n := { st with
    toIterate := st.toIterate.calibrate (Numerics.exact ε τ z) c.toSettings norms }
  by_cases hcosine : st₁.gradientCosine h norms ≤ c.gtol
  · simp only [if_pos hcosine] at hgo
    cases hgo
  · have hpos : 0 < st₁.gradientCosine h norms :=
      lt_of_le_of_lt (Config.gtol_nonneg hc) (not_le.1 hcosine)
    have hres : st₁.residualNorm ≠ 0 := by
      intro hzero
      rw [State.gradientCosine, if_pos ((Exact.beq_iff _ _).2 hzero)] at hpos
      exact lt_irrefl _ hpos
    have hrhs : eqs.rhs ≠ 0 := by
      intro hzero
      have hfactored₁ : eqs.Factored (st₁.factor.leading h).upper st₁.order st₁.rhs.get := hfactored
      obtain hnone | ⟨i, -, hattained⟩ := (isCosine_gradientCosine _ hfactored₁ norms hres).attained
      · exact hpos.ne' hnone
      · rw [hattained, hzero, Pi.zero_apply, zero_div, zero_div, abs_zero] at hpos
        exact lt_irrefl _ hpos
    simp only [if_neg hcosine]
    refine ⟨⟨eqs, hfactored, htapered, hrhs, (hproper.rescale norms).scale_pos, hradius⟩, ?_,
      hst.damping_nonneg⟩
    change 0 < st₁.residualNorm
    exact lt_of_le_of_ne (hresidual ▸ hst.residualNorm_nonneg) (Ne.symm hres)

/-- A preparation that does not end the solve leaves a state in which a step can be proposed. -/
theorem sound_prepare {p : Problem σ ℝ m n} {linearize : Linearize σ ℝ m r n}
    (hl : linearize.Recounts) (ht : linearize.Tapers h) {jac : Jacobian σ ℝ m r n}
    (hf : linearize.Factors h jac) (hfresh : st.fresh = true → st.Waiting)
    (hkeep : st.fresh = false → st.Sound h) (s : σ)
    (hgo : (prepare (Numerics.exact ε τ z) c h p linearize st s).1 = none) :
    (prepare (Numerics.exact ε τ z) c h p linearize st s).2.1.Sound h := by
  unfold prepare at hgo ⊢
  by_cases hst : st.fresh = true
  · have hwait := hfresh hst
    simp only [if_pos hst] at hgo ⊢
    rcases hreport : st.toIterate.reportIfDue c.toSettings p s with ⟨e | _, s'⟩
    · simp only [hreport, reduceCtorEq] at hgo
    · simp only [hreport] at hgo ⊢
      have hrec := hl st s'
      have hdamping := ht.damping st s'
      rcases hlin : linearize st s' with ⟨e | norms, st', s''⟩
      · simp only [hlin, reduceCtorEq] at hgo
      · simp only [hlin] at hgo hrec hdamping ⊢
        have hok : (linearize st s').1 = .ok norms := congrArg Prod.fst hlin
        obtain ⟨a, -, hfactors⟩ := hf st s' norms hok
        have htapered := ht.tapered st s' norms hok
        rw [hlin] at hfactors htapered
        exact sound_adapt hc (hwait.recount hrec hdamping) hfactors htapered
          (ht.norms_nonneg st s' norms hok) hgo
  · rw [if_neg hst]
    exact hkeep (Bool.not_eq_true _ ▸ hst)

end Prepare

/-! ### Trial steps -/

section Trial

variable {h : n ≤ r} {st : State ℝ m r n} (hst : st.Sound h)

include hst

/-- The step that is proposed has a positive length. -/
theorem sound_propose (hτ : 0 < τ) :
    (st.propose (Numerics.exact ε τ z) h).2.Sound h ∧
      0 < (st.propose (Numerics.exact ε τ z) h).1.length := by
  obtain ⟨eqs, hposed⟩ := hst.posed
  obtain ⟨hstep, hdamping⟩ := hposed.solve_ne_zero (ε := ε) (z := z) hτ st.damping
  have hkept := hposed.congr ((factorization_propose (Numerics.exact ε τ z) h st).factor.leading h)
  set sol := (st.subproblem h).solve (Numerics.exact ε τ z) st.damping
  have hneg : (sol.step.map fun p => -p).get ≠ 0 := by
    intro hzero
    refine hstep (funext ?_)
    intro j
    have hj := congrFun hzero j
    rw [Vec.map_apply] at hj
    exact neg_eq_zero.1 hj
  have hlength : 0 < (Numerics.exact ε τ z).scaledNorm st.scale (sol.step.map fun p => -p) :=
    Numerics.vecNorm_pos (Vec.diagMul_ne_zero hposed.scale_pos hneg)
  have hradius : 0 < (st.toIterate.propose (Numerics.exact ε τ z)
      (sol.step.map fun p => -p)).2.radius := by
    unfold Iterate.propose
    simp only
    split
    · rw [Exact.minNum_eq]
      exact lt_min hposed.radius_pos hlength
    · exact hposed.radius_pos
  exact ⟨⟨⟨eqs, hkept.factored, hkept.tapered, hposed.rhs_ne_zero, hposed.scale_pos, hradius⟩,
    hst.residualNorm_pos, hdamping⟩, hlength⟩

/-- The trust region does not shrink to a point. -/
theorem sound_resize (g : Gain ℝ) {length : ℝ} (hlength : 0 < length) (norm1 : ℝ) :
    (st.resize g length norm1).Sound h := by
  obtain ⟨eqs, hposed⟩ := hst.posed
  have hshrink := Iterate.Proper.shrink_pos g st.residualNorm norm1
  unfold State.resize
  split
  · refine hst.update (mul_pos hshrink ?_) (div_nonneg hst.damping_nonneg hshrink.le)
    rw [Exact.minNum_eq]
    exact lt_min hposed.radius_pos (div_pos hlength (by norm_num))
  · split
    · exact hst.update (div_pos hlength (by norm_num))
        (mul_nonneg hst.damping_nonneg (by norm_num))
    · exact hst

/-- After a trial step another one can be made at once, unless the step is accepted. -/
theorem sound_after {t : Proposal ℝ n} (hlength : 0 < t.length) (f : Vec ℝ m) :
    ((st.after (Numerics.exact ε τ z) h t f).fresh = true →
        (st.after (Numerics.exact ε τ z) h t f).Waiting) ∧
      ((st.after (Numerics.exact ε τ z) h t f).fresh = false →
        (st.after (Numerics.exact ε τ z) h t f).Sound h) := by
  have hresize := sound_resize hst
    (st.gain (Numerics.exact ε τ z) h t ((Numerics.exact ε τ z).vecNorm f)) hlength
    ((Numerics.exact ε τ z).vecNorm f)
  obtain ⟨eqs, hposed⟩ := hresize.posed
  unfold State.after
  by_cases hacc : accepts (Numerics.exact ε τ z) h st t f
  · rw [if_pos hacc]
    refine ⟨fun _ => ?_, fun hfresh => by cases hfresh⟩
    exact ⟨⟨hposed.scale_pos, hposed.radius_pos.le⟩, Or.inr hposed.radius_pos,
      Numerics.vecNorm_exact_nonneg ε τ z f, hresize.damping_nonneg⟩
  · rw [if_neg hacc]
    refine ⟨fun hfresh => absurd hfresh Bool.false_ne_true, fun _ => ?_⟩
    exact ⟨hresize.posed, hresize.residualNorm_pos, hresize.damping_nonneg⟩

end Trial

/-! ### Moments -/

/-- What holds at a moment of a minimization. -/
def SoundAt (h : n ≤ r) (mo : Moment σ ℝ n (State ℝ m r n)) : Prop :=
  match mo.stage with
  | .ready =>
    (mo.state.fresh = true → mo.state.Waiting) ∧ (mo.state.fresh = false → mo.state.Sound h)
  | .prepared => mo.state.Sound h
  | .proposed t => mo.state.Sound h ∧ 0 < t.length
  | .ended _ => True

/-- After a verdict a moment is sound if the state is fit for what comes next. -/
theorem soundAt_verdict {h : n ≤ r} {st : State ℝ m r n} (reason : Option Termination)
    (hfresh : st.fresh = true → st.Waiting) (hkeep : st.fresh = false → st.Sound h) (s : σ)
    (b : Vec ℝ n) : SoundAt h ⟨.ofVerdict reason, st, s, b⟩ := by
  cases reason with
  | none => exact ⟨hfresh, hkeep⟩
  | some reason => trivial

section Course

variable {c : Config ℝ} (hc : c.fault? n = none) {h : n ≤ r} {p : Problem σ ℝ m n}
  {linearize : Linearize σ ℝ m r n} {budget : Nat}

include hc

/-- The first thing to do is to linearize. -/
theorem waiting_start (p : Problem σ ℝ m n) (x : Vec ℝ n) (s : σ) :
    (State.ofIterate ((Iterate.start c.toSettings x).evaluate (Numerics.exact ε τ z) p s).2.1 :
      State ℝ m r n).Waiting := by
  have hproper := (Iterate.Proper.start (m := m) (Config.settings_fault? hc) x).evaluate (ε := ε)
    (τ := τ) (z := z) p s
  refine ⟨hproper, ?_, ?_, le_rfl⟩
  all_goals
    unfold Iterate.evaluate
    simp only
    rcases p.evaluate (Iterate.start (m := m) c.toSettings x).x s with ⟨e | f, s'⟩
  · exact Or.inl rfl
  · exact Or.inl rfl
  · exact le_rfl
  · exact Numerics.vecNorm_exact_nonneg ε τ z f

/-- A minimization begins soundly. -/
theorem soundAt_opening (x : Vec ℝ n) (s : σ) :
    SoundAt h ((method (Numerics.exact ε τ z) c budget h p linearize).opening
      (Numerics.exact ε τ z) c.toSettings p x s) := by
  have hwait := waiting_start (ε := ε) (τ := τ) (z := z) (r := r) hc p x s
  exact soundAt_verdict _ (fun _ => hwait) (fun hfresh => by cases hfresh) _ _

variable (hτ : 0 < τ) (hl : linearize.Recounts) (ht : linearize.Tapers h)
  {jac : Jacobian σ ℝ m r n} (hf : linearize.Factors h jac)

include hτ hl ht hf

/-- Every move leads from a sound moment to a sound one. -/
theorem soundAt_next {accepts : Acceptance (State ℝ m r n) ℝ m n}
    (mo : Moment σ ℝ n (State ℝ m r n)) (hmo : SoundAt h mo) :
    SoundAt h ((method (Numerics.exact ε τ z) c budget h p linearize).next accepts p mo) := by
  obtain ⟨stage, st, s, b⟩ := mo
  cases stage with
  | ready =>
    obtain ⟨hfresh, hkeep⟩ := hmo
    have hprepare := sound_prepare (ε := ε) (τ := τ) (z := z) (p := p) hc hl ht hf hfresh hkeep s
    rw [Method.next_ready]
    change SoundAt h ⟨.ofPreparation (prepare (Numerics.exact ε τ z) c h p linearize st s).1,
      (prepare (Numerics.exact ε τ z) c h p linearize st s).2.1, _, _⟩
    rcases hreason : (prepare (Numerics.exact ε τ z) c h p linearize st s).1 with _ | reason
    · exact hprepare hreason
    · trivial
  | prepared => exact sound_propose hmo hτ
  | proposed t =>
    obtain ⟨hst, hlength⟩ := hmo
    rcases heval : p.evaluate t.point s with ⟨e | f, s'⟩
    · rw [Method.next_proposed_of_error heval]
      trivial
    · rw [Method.next_proposed_of_ok heval]
      change SoundAt h ⟨.ofVerdict (st.judge (Numerics.exact ε τ z) c budget h t f).1,
        (st.judge (Numerics.exact ε τ z) c budget h t f).2, _, _⟩
      obtain ⟨hfresh, hkeep⟩ := sound_after (ε := ε) (τ := τ) (z := z) hst hlength f
      rw [judge_eq]
      exact soundAt_verdict _ hfresh hkeep _ _
  | ended reason => trivial

end Course

end LeastSquares

end NonlinearSolve

import Mathlib.Analysis.Calculus.Deriv.Add
import Mathlib.Analysis.Calculus.Deriv.Mul
import Mathlib.Analysis.Calculus.Deriv.Pow
import Mathlib.Topology.Algebra.Module.ModuleTopology
import NonlinearSolve.Proofs.LeastSquares.Soundness
import NonlinearSolve.Proofs.TrustRegion.Solution

/-! # What a trial step is measured by

A trial step is judged without the Jacobian `J`: from the triangular factor, the damping and the
length of the step. In exact arithmetic that comes to the linear model `f + J p` of the residuals
(`State.FollowsModel`), because the step solves the damped normal equations (`solves_propose`):
the predicted reduction is that of the model, and the slope is that of the sum of squares. After
growth the trust region shrinks to where a parabola through the two sums of squares has its minimum
(`Gain.shrink_of_growth`). This holds at every trial step of a solve, for the Jacobian by which the
solve has linearized last (`predictsByModel_run`). -/

namespace NonlinearSolve

open Matrix Scalar

/-! ### Parabolas -/

/-- The parabola with the value `y₀` and the slope `s` at zero and with the value `y₁` at one. -/
def parabola (y₀ s y₁ t : ℝ) : ℝ := y₀ + s * t + (y₁ - y₀ - s) * t ^ 2

section Parabola

variable (y₀ s y₁ : ℝ)

/-- The parabola starts at `y₀`. -/
@[simp] theorem parabola_zero : parabola y₀ s y₁ 0 = y₀ := by
  rw [parabola]
  ring

/-- The parabola ends at `y₁`. -/
@[simp] theorem parabola_one : parabola y₀ s y₁ 1 = y₁ := by
  rw [parabola]
  ring

/-- The parabola starts with slope `s`. -/
theorem hasDerivAt_parabola_zero : HasDerivAt (parabola y₀ s y₁) s 0 := by
  have hlinear : HasDerivAt (fun t => y₀ + s * t) (s * 1) 0 :=
    ((hasDerivAt_id (0 : ℝ)).const_mul s).const_add y₀
  have hsquare : HasDerivAt (fun t => (y₁ - y₀ - s) * t ^ 2) _ 0 :=
    (hasDerivAt_pow 2 (0 : ℝ)).const_mul (y₁ - y₀ - s)
  refine (hlinear.add hsquare).congr_deriv ?_
  ring

variable {y₀ s y₁}

/-- A parabola that opens upwards is lowest where its slope is zero, and only there. -/
theorem parabola_lt {t u : ℝ} (hopen : 0 < y₁ - y₀ - s) (ht : s + 2 * (y₁ - y₀ - s) * t = 0)
    (hu : u ≠ t) : parabola y₀ s y₁ t < parabola y₀ s y₁ u := by
  have hgap : parabola y₀ s y₁ u - parabola y₀ s y₁ t = (y₁ - y₀ - s) * (u - t) ^ 2 := by
    rw [parabola, parabola]
    linear_combination (u - t) * ht
  have hpos : 0 < (y₁ - y₀ - s) * (u - t) ^ 2 :=
    mul_pos hopen (sq_pos_of_ne_zero (sub_ne_zero.2 hu))
  linarith

end Parabola

namespace LeastSquares

variable {σ : Type} {m r n : Nat} {ε τ : ℝ} {z : Bool}

/-! ### Steps -/

/-- The step solves the normal equations of the state with the damping of the state, and its length
is taken in the units of the scaling. -/
structure State.Solves (h : n ≤ r) (st : State ℝ m r n) (t : Proposal ℝ n) : Prop where
  step {eqs : NormalEquations n} :
    eqs.Factored (st.factor.leading h).upper st.order st.rhs.get →
      (eqs.matrix + st.damping • diagonal st.scale.get ^ 2) *ᵥ t.step.get = -eqs.rhs
  length_sq : t.length ^ 2 = ∑ i, (st.scale i * t.step i) ^ 2

/-- A step is proposed together with its damping. -/
theorem solves_propose (hτ : 0 < τ) {h : n ≤ r} {st : State ℝ m r n} (hst : st.Sound h) :
    (st.propose (Numerics.exact ε τ z) h).2.Solves h
      (st.propose (Numerics.exact ε τ z) h).1 where
  step {eqs} hfactored := by
    obtain ⟨_, hposed⟩ := hst.posed
    have hsame := factorization_propose (Numerics.exact ε τ z) h st
    rw [← (hsame.factor.leading h).upper_eq, hsame.order, hsame.rhs] at hfactored
    set sol := (st.subproblem h).solve (Numerics.exact ε τ z) st.damping with hsol
    have hsolve : (eqs.matrix + sol.damping • diagonal st.scale.get ^ 2) *ᵥ sol.step.get =
        eqs.rhs :=
      (st.subproblem h).mulVec_solve hfactored hposed.tapered hposed.scale_pos
        hposed.radius_pos.le hτ st.damping
    have hneg : (sol.step.map fun p => -p).get = -sol.step.get :=
      funext fun j => Vec.map_apply _ sol.step j
    change (eqs.matrix + sol.damping • diagonal st.scale.get ^ 2) *ᵥ
      (sol.step.map fun p => -p).get = -eqs.rhs
    rw [hneg, mulVec_neg, hsolve]
  length_sq := by
    set p := (st.propose (Numerics.exact ε τ z) h).1.step
    change (Numerics.exact ε τ z).vecNorm (st.scale.diagMul p) ^ 2 = ∑ i, (st.scale i * p i) ^ 2
    rw [Numerics.vecNorm_exact_sq]
    exact Finset.sum_congr rfl fun i _ => by rw [Vec.diagMul_apply]

/-! ### Gains -/

/-- The trial step `t` is judged by the linear model `f + J p`, where `f` are the residuals of the
state, `J` is the Jacobian `a` and `p` is the step: the reduction that is predicted and the slope
are those of the model. If the sum of squares has grown, the trust region shrinks to the lowest
point of the parabola with the values and the slope that are known, but not below a tenth. The
residuals at the proposed point are `v`, and `st'` is the state after the step. -/
structure State.FollowsModel (nm : Numerics ℝ) (h : n ≤ r) (st : State ℝ m r n) (a : Mat ℝ m n)
    (t : Proposal ℝ n) (v : Vec ℝ m) (st' : State ℝ m r n) : Prop where
  predicted : (st.gain nm h t (nm.vecNorm v)).predicted * (st.residuals.get ⬝ᵥ st.residuals.get) =
    st.residuals.get ⬝ᵥ st.residuals.get -
      (st.residuals.get + a.toMatrix *ᵥ t.step.get) ⬝ᵥ
        (st.residuals.get + a.toMatrix *ᵥ t.step.get)
  slope : (st.gain nm h t (nm.vecNorm v)).slope * (st.residuals.get ⬝ᵥ st.residuals.get) =
    t.step.get ⬝ᵥ a.toMatrixᵀ *ᵥ st.residuals.get
  shrink : let g := st.gain nm h t (nm.vecNorm v)
    let sq := st.residuals.get ⬝ᵥ st.residuals.get
    g.ratio ≤ 0.25 → g.actual < 0 → ∃ u, (∀ w, w ≠ u →
        parabola sq (2 * g.slope * sq) ((1 - g.actual) * sq) u <
          parabola sq (2 * g.slope * sq) ((1 - g.actual) * sq) w) ∧
      let factor := if st.residualNorm ≤ 0.1 * nm.vecNorm v ∨ u < 0.1 then 0.1 else u
      st'.radius = factor * min st.radius (t.length / 0.1) ∧ st'.damping = st.damping / factor

/-- After growth the trust region shrinks to the lowest point of a parabola. -/
theorem Gain.shrink_of_growth (g : Gain ℝ) (hslope : g.slope ≤ 0) (hactual : g.actual < 0) {sq : ℝ}
    (hsq : 0 < sq) :
    ∃ u, (∀ w, w ≠ u → parabola sq (2 * g.slope * sq) ((1 - g.actual) * sq) u <
        parabola sq (2 * g.slope * sq) ((1 - g.actual) * sq) w) ∧
      ∀ norm norm1, g.shrink norm norm1 = if norm ≤ 0.1 * norm1 ∨ u < 0.1 then 0.1 else u := by
  -- neither term is positive, so the quotient of the lowest point is defined
  have hne : g.slope + 0.5 * g.actual ≠ 0 := by linarith
  have hlowest := div_mul_cancel₀ (0.5 * g.slope) hne
  refine ⟨0.5 * g.slope / (g.slope + 0.5 * g.actual), fun w hw => parabola_lt ?_ ?_ hw, ?_⟩
  · have hcurvature : (1 - g.actual) * sq - sq - 2 * g.slope * sq =
        (-g.actual - 2 * g.slope) * sq := by ring
    rw [hcurvature]
    exact mul_pos (by linarith) hsq
  · linear_combination -4 * sq * hlowest
  · intro norm norm1
    rw [Gain.shrink, if_neg (not_le.2 hactual)]

/-- After a poor step the radius and the damping change by the factor of the trust region. -/
theorem resize_of_poor (st : State ℝ m r n) {g : Gain ℝ} (hratio : g.ratio ≤ 0.25)
    (length norm1 : ℝ) :
    (st.resize g length norm1).radius =
        g.shrink st.residualNorm norm1 * min st.radius (length / 0.1) ∧
      (st.resize g length norm1).damping = st.damping / g.shrink st.residualNorm norm1 := by
  rw [State.resize, if_pos hratio, Exact.minNum_eq]
  exact ⟨rfl, rfl⟩

/-- Whether the step is accepted does not matter to the radius and the damping. -/
theorem resize_after (nm : Numerics ℝ) (h : n ≤ r) (st : State ℝ m r n) (t : Proposal ℝ n)
    (v : Vec ℝ m) :
    (st.after nm h t v).radius =
        (st.resize (st.gain nm h t (nm.vecNorm v)) t.length (nm.vecNorm v)).radius ∧
      (st.after nm h t v).damping =
        (st.resize (st.gain nm h t (nm.vecNorm v)) t.length (nm.vecNorm v)).damping := by
  rw [State.after]
  split <;> exact ⟨rfl, rfl⟩

section Gain

variable {h : n ≤ r} {st : State ℝ m r n} {a : Mat ℝ m n} {f : Vec ℝ m} {t : Proposal ℝ n}
  (hf : st.Factors h a f)

include hf

/-- The triangular factor changes a step into a vector as long as the Jacobian does. -/
theorem vecNorm_linearChange_sq (p : Vec ℝ n) :
    (Numerics.exact ε τ z).vecNorm (st.linearChange h p) ^ 2 =
      (a.toMatrix *ᵥ p.get) ⬝ᵥ (a.toMatrix *ᵥ p.get) := by
  have hdot := hf.mulVec_dot_mulVec p.get p.get
  rw [← State.linearChange_get] at hdot
  rw [Numerics.vecNorm_eq_sqrt_dot, hdot, NormalEquations.ofProblem, ← mulVec_mulVec,
    dotProduct_mulVec, vecMul_transpose, Real.sq_sqrt]
  exact Finset.sum_nonneg fun i _ => mul_self_nonneg _

/-- Along a step that solves the damped normal equations the sum of squares falls. -/
theorem step_dot_gradient (hs : st.Solves h t) :
    t.step.get ⬝ᵥ a.toMatrixᵀ *ᵥ f.get =
      -((a.toMatrix *ᵥ t.step.get) ⬝ᵥ (a.toMatrix *ᵥ t.step.get) +
        st.damping * t.length ^ 2) := by
  set p := t.step.get with hp
  -- the equations, multiplied by the step
  have hstep := congrArg (p ⬝ᵥ ·) (hs.step hf)
  have hscaled : p ⬝ᵥ diagonal st.scale.get ^ 2 *ᵥ p = t.length ^ 2 := by
    rw [hs.length_sq, diagonal_pow]
    refine Finset.sum_congr rfl ?_
    intro i _
    rw [mulVec_diagonal, Pi.pow_apply, hp]
    ring
  rw [add_mulVec, dotProduct_add, smul_mulVec, dotProduct_smul, hscaled, dotProduct_neg,
    smul_eq_mul, NormalEquations.ofProblem] at hstep
  rw [← mulVec_mulVec, dotProduct_mulVec, vecMul_transpose] at hstep
  rw [hstep, neg_neg]

variable (hnorm : st.residualNorm = (Numerics.exact ε τ z).vecNorm f)
  (hpos : 0 < st.residualNorm) (hdamping : 0 ≤ st.damping) (hs : st.Solves h t)

include hnorm hpos hdamping

/-- What the linear change and the damping contribute, in units of the sum of squares. -/
theorem gain_parts (length : ℝ) :
    ((Numerics.exact ε τ z).vecNorm (st.linearChange h t.step) / st.residualNorm) ^ 2 *
        (f.get ⬝ᵥ f.get) = (a.toMatrix *ᵥ t.step.get) ⬝ᵥ (a.toMatrix *ᵥ t.step.get) ∧
      (√st.damping * length / st.residualNorm) ^ 2 * (f.get ⬝ᵥ f.get) =
        st.damping * length ^ 2 := by
  have hsq : f.get ⬝ᵥ f.get = st.residualNorm ^ 2 := by
    rw [hnorm, Numerics.vecNorm_exact_sq]
    exact Finset.sum_congr rfl fun i _ => (pow_two (f i)).symm
  have hne : st.residualNorm ^ 2 ≠ 0 := (pow_pos hpos 2).ne'
  rw [hsq, div_pow, div_mul_cancel₀ _ hne, div_pow, div_mul_cancel₀ _ hne,
    vecNorm_linearChange_sq hf, mul_pow, Real.sq_sqrt hdamping]
  exact ⟨rfl, rfl⟩

include hs

/-- The predicted reduction is that of the linear model. -/
theorem predicted_mul (norm1 : ℝ) :
    (st.gain (Numerics.exact ε τ z) h t norm1).predicted * (f.get ⬝ᵥ f.get) =
      f.get ⬝ᵥ f.get -
        (f.get + a.toMatrix *ᵥ t.step.get) ⬝ᵥ (f.get + a.toMatrix *ᵥ t.step.get) := by
  obtain ⟨hlinear, hdamped⟩ := gain_parts hf hnorm hpos hdamping t.length
  have hcross : f.get ⬝ᵥ a.toMatrix *ᵥ t.step.get = t.step.get ⬝ᵥ a.toMatrixᵀ *ᵥ f.get := by
    rw [dotProduct_mulVec, ← mulVec_transpose, dotProduct_comm]
  have hmodel : (f.get + a.toMatrix *ᵥ t.step.get) ⬝ᵥ (f.get + a.toMatrix *ᵥ t.step.get) =
      f.get ⬝ᵥ f.get + 2 * (t.step.get ⬝ᵥ a.toMatrixᵀ *ᵥ f.get) +
        (a.toMatrix *ᵥ t.step.get) ⬝ᵥ (a.toMatrix *ᵥ t.step.get) := by
    rw [add_dotProduct, dotProduct_add, dotProduct_add, dotProduct_comm (a.toMatrix *ᵥ _) f.get,
      hcross]
    ring
  rw [hmodel, step_dot_gradient hf hs]
  simp only [State.gain]
  linear_combination hlinear + 2 * hdamped

/-- The slope is half that of the sum of squares. -/
theorem slope_mul (norm1 : ℝ) :
    (st.gain (Numerics.exact ε τ z) h t norm1).slope * (f.get ⬝ᵥ f.get) =
      t.step.get ⬝ᵥ a.toMatrixᵀ *ᵥ f.get := by
  obtain ⟨hlinear, hdamped⟩ := gain_parts hf hnorm hpos hdamping t.length
  rw [step_dot_gradient hf hs]
  simp only [State.gain]
  linear_combination -hlinear - hdamped

end Gain

/-- A step that solves the damped normal equations is judged by the linear model. -/
theorem followsModel_after {h : n ≤ r} {st : State ℝ m r n} {a : Mat ℝ m n} {t : Proposal ℝ n}
    (hf : st.Factors h a st.residuals)
    (hnorm : st.residualNorm = (Numerics.exact ε τ z).vecNorm st.residuals)
    (hpos : 0 < st.residualNorm) (hdamping : 0 ≤ st.damping) (hs : st.Solves h t) (v : Vec ℝ m) :
    st.FollowsModel (Numerics.exact ε τ z) h a t v
      (st.after (Numerics.exact ε τ z) h t v) where
  predicted := predicted_mul hf hnorm hpos hdamping hs _
  slope := slope_mul hf hnorm hpos hdamping hs _
  shrink := by
    intro g sq hratio hactual
    have hslope : g.slope ≤ 0 :=
      neg_nonpos.2 (add_nonneg (mul_self_nonneg _) (mul_self_nonneg _))
    have hsq : 0 < sq := by
      change 0 < st.residuals.get ⬝ᵥ st.residuals.get
      rw [hnorm, Numerics.vecNorm_eq_sqrt_dot, Real.sqrt_pos] at hpos
      exact hpos
    obtain ⟨u, hlowest, hshrink⟩ := g.shrink_of_growth hslope hactual hsq
    obtain ⟨hradius, hdamp⟩ := resize_of_poor st hratio t.length
      ((Numerics.exact ε τ z).vecNorm v)
    obtain ⟨hradius', hdamp'⟩ := resize_after (Numerics.exact ε τ z) h st t v
    refine ⟨u, hlowest, ?_, ?_⟩
    · rw [hradius', hradius, hshrink]
    · rw [hdamp', hdamp, hshrink]

/-! ### The current Jacobian -/

/-- The Jacobian `a` is the current one at the moment `k`: it is that of the move after some earlier
moment `j`. Since then the solve has not linearized again, and the residuals are the same. -/
def IsCurrent (course : Nat → Moment σ ℝ n (State ℝ m r n))
    (attempts : Moment σ ℝ n (State ℝ m r n) → Attempt)
    (jacobian? : Moment σ ℝ n (State ℝ m r n) → Option (Mat ℝ m n)) (k : Nat) (a : Mat ℝ m n) :
    Prop :=
  ∃ j < k, jacobian? (course j) = some a ∧ (∀ i, j < i → i < k → attempts (course i) = .omitted) ∧
    (course k).state.residuals = (course j).state.residuals

/-- A moment of an iteration that has been linearized. -/
def Linearized (mo : Moment σ ℝ n (State ℝ m r n)) : Prop :=
  match mo.stage with
  | .ready => mo.state.fresh = false
  | .prepared => True
  | .proposed _ => True
  | .ended _ => False

section Moves

variable {nm : Numerics ℝ} {c : Config ℝ} {budget : Nat} {h : n ≤ r} {p : Problem σ ℝ m n}
  {linearize : Linearize σ ℝ m r n} {mo : Moment σ ℝ n (State ℝ m r n)}

/-- After a verdict the linearization still holds only if the step was rejected. -/
theorem linearized_verdict {st : State ℝ m r n} {reason : Option Termination} {s : σ} {b : Vec ℝ n}
    (hlin : Linearized ⟨.ofVerdict reason, st, s, b⟩) : st.fresh = false := by
  cases reason with
  | none => exact hlin
  | some reason => exact hlin.elim

/-- After a preparation there is a linearization only if nothing has ended the solve. -/
theorem linearized_preparation {st : State ℝ m r n} {reason : Option Termination} {s : σ}
    {b : Vec ℝ n} (hlin : Linearized ⟨.ofPreparation reason, st, s, b⟩) : reason = none := by
  cases reason with
  | none => rfl
  | some reason => exact hlin.elim

/-- A move that does not linearize stays in the iteration only if the step is rejected. -/
theorem linearized_of_next (homit : mo.attempt (attempt c.toSettings p linearize) = .omitted)
    (hnext : Linearized ((method nm c budget h p linearize).next (accepts nm h) p mo)) :
    Linearized mo ∧ ((method nm c budget h p linearize).next (accepts nm h) p mo).state.residuals =
      mo.state.residuals := by
  obtain ⟨stage, st, s, b⟩ := mo
  cases stage with
  | ready =>
    have hattempt : attempt c.toSettings p linearize st s = .omitted := homit
    rw [Method.next_ready] at hnext ⊢
    have hstate : ((method nm c budget h p linearize).prepare st s).2.1 = st :=
      prepare_of_omitted hattempt
    refine ⟨?_, congrArg (·.residuals) hstate⟩
    -- a new iterate that is not linearized has a report that aborts
    by_contra hfresh
    have hgo : (prepare nm c h p linearize st s).1 = none := linearized_preparation hnext
    have hst : st.fresh = true := Bool.of_not_eq_false hfresh
    simp only [attempt, linearizesFrom?, prepare, if_pos hst] at hattempt hgo
    rcases hreport : st.toIterate.reportIfDue c.toSettings p s with ⟨e | _, s'⟩
    · simp only [hreport, reduceCtorEq] at hgo
    · simp only [hreport] at hattempt
      rcases hlin : (linearize st s').1 with e | norms <;>
        simp only [hlin, Attempt.ofResult, reduceCtorEq] at hattempt
  | prepared => exact ⟨trivial, rfl⟩
  | proposed t =>
    rcases heval : p.evaluate t.point s with ⟨e | v, s'⟩
    · rw [Method.next_proposed_of_error heval] at hnext
      exact hnext.elim
    · rw [Method.next_proposed_of_ok heval] at hnext ⊢
      have hstate : ((method nm c budget h p linearize).judge st t v).2 = st.after nm h t v :=
        judge_state nm c h st budget t v
      have hrejected := linearized_verdict hnext
      rw [hstate, fresh_after] at hrejected
      have hpos := position_after nm h st t v
      rw [hrejected, if_neg Bool.false_ne_true] at hpos
      refine ⟨trivial, ?_⟩
      change ((method nm c budget h p linearize).judge st t v).2.residuals = st.residuals
      rw [hstate]
      exact congrArg Position.residuals hpos
  | ended reason => exact hnext.elim

/-- A move that linearizes leaves the residuals alone. -/
theorem residuals_next_of_completed (hl : linearize.Recounts)
    (hcomp : mo.attempt (attempt c.toSettings p linearize) = .completed) :
    ((method nm c budget h p linearize).next (accepts nm h) p mo).state.residuals =
      mo.state.residuals := by
  obtain ⟨stage, st, s, b⟩ := mo
  cases stage with
  | ready =>
    rw [Method.next_ready]
    exact congrArg Position.residuals (hl.prepare st s).1
  | prepared => cases hcomp
  | proposed t => cases hcomp
  | ended reason => cases hcomp

/-- A linearization that aborts leaves none behind. -/
theorem not_linearized_of_aborted {e : Abort}
    (hab : mo.attempt (attempt c.toSettings p linearize) = .aborted e) :
    ¬ Linearized ((method nm c budget h p linearize).next (accepts nm h) p mo) := by
  obtain ⟨stage, st, s, b⟩ := mo
  intro hnext
  cases stage with
  | ready =>
    rw [Method.next_ready] at hnext
    have hgo : (prepare nm c h p linearize st s).1 = none := linearized_preparation hnext
    rw [prepare_of_aborted hab] at hgo
    cases hgo
  | prepared => cases hab
  | proposed t => cases hab
  | ended reason => cases hab

/-- A step is proposed by the move after a preparation, so it solves the equations of its state. -/
theorem solves_next (hτ : 0 < τ) {mo : Moment σ ℝ n (State ℝ m r n)} (hmo : SoundAt h mo)
    {accepts : Acceptance (State ℝ m r n) ℝ m n} {t : Proposal ℝ n}
    (hstage : ((method (Numerics.exact ε τ z) c budget h p linearize).next accepts p mo).stage =
      .proposed t) :
    ((method (Numerics.exact ε τ z) c budget h p linearize).next accepts p mo).state.Solves
      h t := by
  obtain ⟨stage, st, s, b⟩ := mo
  cases stage with
  | ready =>
    rw [Method.next_ready] at hstage
    exact absurd hstage (Stage.ofPreparation_ne_proposed _ t)
  | prepared =>
    cases hstage
    exact solves_propose hτ hmo
  | proposed u =>
    rcases heval : p.evaluate u.point s with ⟨e | v, s'⟩
    · rw [Method.next_proposed_of_error heval] at hstage
      cases hstage
    · rw [Method.next_proposed_of_ok heval] at hstage
      exact absurd hstage (Stage.ofVerdict_ne_proposed _ t)
  | ended reason => cases hstage

end Moves

section Course

variable {c : Config ℝ} {budget : Nat} {h : n ≤ r} {p : Problem σ ℝ m n}
  {linearize : Linearize σ ℝ m r n} {jac : Jacobian σ ℝ m r n} {x : Vec ℝ n} {s : σ}

/-- In an iteration that has been linearized the state has the factors of the current Jacobian. -/
theorem exists_isCurrent (nm : Numerics ℝ) (hl : linearize.Recounts) (hf : linearize.Factors h jac)
    (k : Nat)
    (hlin : Linearized ((method nm c budget h p linearize).course (accepts nm h) nm c.toSettings p
      x s k)) :
    let course := (method nm c budget h p linearize).course (accepts nm h) nm c.toSettings p x s
    ∃ a, IsCurrent course (Moment.attempt (attempt c.toSettings p linearize))
        (jacobianAt? c.toSettings p jac) k a ∧
      (course k).state.Factors h a (course k).state.residuals := by
  intro course
  -- a move that linearizes makes its Jacobian the current one, and all others keep the one they
  -- have
  induction k with
  | zero =>
    -- the starting point is new
    have hfresh : true = false := linearized_verdict hlin
    cases hfresh
  | succ k ih =>
    have hsucc : course (k + 1) = (method nm c budget h p linearize).next (accepts nm h) p
        (course k) := Method.course_succ k
    change Linearized (course (k + 1)) at hlin
    rw [hsucc] at hlin
    rcases hattempt : (course k).attempt (attempt c.toSettings p linearize) with _ | _ | e
    · obtain ⟨hk, hres⟩ := linearized_of_next hattempt hlin
      obtain ⟨a, ⟨j, hjk, hjac, homit, hsame⟩, hfactors⟩ := ih hk
      refine ⟨a, ⟨j, by omega, hjac, ?_, ?_⟩, ?_⟩
      · intro i hji hik
        rcases Nat.lt_succ_iff_lt_or_eq.1 hik with hlt | rfl
        · exact homit i hji hlt
        · exact hattempt
      · rw [hsucc, hres, hsame]
      · rw [hsucc, hres]
        exact factors_next_of_omitted hattempt hfactors
    · have hres : ((method nm c budget h p linearize).next (accepts nm h) p
          (course k)).state.residuals = (course k).state.residuals :=
        residuals_next_of_completed hl hattempt
      obtain ⟨a, hjac, hfactors⟩ : ∃ a, jacobianAt? c.toSettings p jac (course k) = some a ∧
          ((method nm c budget h p linearize).next (accepts nm h) p
            (course k)).state.Factors h a (course k).state.residuals :=
        factors_next_of_completed hf hattempt
      refine ⟨a, ⟨k, by omega, hjac, fun i hki hik => by omega, ?_⟩, ?_⟩
      · rw [hsucc, hres]
      · rw [hsucc, hres]
        exact hfactors
    · exact absurd hlin (not_linearized_of_aborted hattempt)

/-- Every step that is proposed solves the damped normal equations of a state in which a step can be
proposed. -/
theorem solves_course (hc : c.fault? n = none) (hτ : 0 < τ) (hl : linearize.Recounts)
    (ht : linearize.Tapers h) (hf : linearize.Factors h jac) (k : Nat) :
    let mo := (method (Numerics.exact ε τ z) c budget h p linearize).course
      (accepts (Numerics.exact ε τ z) h) (Numerics.exact ε τ z) c.toSettings p x s k
    ∀ t, mo.stage = .proposed t → mo.state.Sound h ∧ mo.state.Solves h t := by
  have hsound : ∀ k, SoundAt h ((method (Numerics.exact ε τ z) c budget h p linearize).course
      (accepts (Numerics.exact ε τ z) h) (Numerics.exact ε τ z) c.toSettings p x s k) :=
    Method.course_induction (soundAt_opening hc x s) (soundAt_next hc hτ hl ht hf)
  intro mo t hstage
  have hmo : SoundAt h mo := hsound k
  unfold SoundAt at hmo
  rw [hstage] at hmo
  refine ⟨hmo.1, ?_⟩
  cases k with
  | zero => exact absurd hstage (Stage.ofVerdict_ne_proposed _ t)
  | succ k =>
    have hsucc : mo = (method (Numerics.exact ε τ z) c budget h p linearize).next
        (accepts (Numerics.exact ε τ z) h) p
        ((method (Numerics.exact ε τ z) c budget h p linearize).course
          (accepts (Numerics.exact ε τ z) h) (Numerics.exact ε τ z) c.toSettings p x s k) :=
      Method.course_succ k
    rw [hsucc] at hstage ⊢
    exact solves_next hτ (hsound k) hstage

end Course

section Run

variable {c : Config ℝ} {patience : Nat} {p : Problem σ ℝ m n} {rows : n ≤ m → n ≤ r}
  {linearize : n ≤ m → Linearize σ ℝ m r n}

/-- Every trial step of a solve is judged by the linear model with the current Jacobian. -/
def PredictsByModel (nm : Numerics ℝ) (course : Nat → Moment σ ℝ n (State ℝ m r n))
    (attempts : Moment σ ℝ n (State ℝ m r n) → Attempt)
    (jacobian? : Moment σ ℝ n (State ℝ m r n) → Option (Mat ℝ m n)) (h : n ≤ r)
    (p : Problem σ ℝ m n) : Prop :=
  ∀ k t v s, (course k).stage = .proposed t →
    p.evaluate t.point (course k).world = (.ok v, s) →
    ∃ a, IsCurrent course attempts jacobian? k a ∧
      (course k).state.FollowsModel nm h a t v (course (k + 1)).state

variable (rows) in
/-- The trial steps of all solves are judged by the linear model. -/
theorem predictsByModel_run (hτ : 0 < τ) (c : Config ℝ) (p : Problem σ ℝ m n)
    (hl : ∀ h, (linearize h).Recounts) (ht : ∀ h, (linearize h).Tapers (rows h))
    {jac : Jacobian σ ℝ m r n} (h : n ≤ m) (hf : (linearize h).Factors (rows h) jac) (x : Vec ℝ n)
    (s : σ) :
    PredictsByModel (Numerics.exact ε τ z)
      (course (Numerics.exact ε τ z) c patience p rows linearize x s) (attempts c p linearize)
      (jacobianAt? c.toSettings p jac) (rows h) p := by
  intro k t v s' hstage heval
  rcases hc : c.fault? n with _ | e
  · have hattempts : attempts c p linearize =
        Moment.attempt (attempt c.toSettings p (linearize h)) := funext fun _ => dif_pos h
    rw [hattempts]
    rw [course_eq h hc] at hstage heval ⊢
    set nm := Numerics.exact ε τ z
    set me := method nm c (c.budget patience n) (rows h) p (linearize h)
    set course := me.course (accepts nm (rows h)) nm c.toSettings p x s
    obtain ⟨hsound, hsolves⟩ := solves_course hc hτ (hl h) (ht h) hf k t hstage
    have hgoes : ∀ reason, (course k).stage ≠ .ended reason := by
      intro reason hended
      rw [hstage] at hended
      cases hended
    have hlin : Linearized (course k) := by
      rw [Linearized, hstage]
      trivial
    obtain ⟨a, hcurrent, hfactors⟩ := exists_isCurrent nm (hl h) hf k hlin
    have hnorm : (course k).state.residualNorm = nm.vecNorm (course k).state.residuals :=
      (steady_method (hl h)).residualNorm_course k hgoes
    have hafter : (course (k + 1)).state = (course k).state.after nm (rows h) t v := by
      have hsucc : course (k + 1) = me.next (accepts nm (rows h)) p (course k) :=
        Method.course_succ k
      rw [hsucc]
      rcases hmo : course k with ⟨stage, st, w, b⟩
      rw [hmo] at hstage heval
      obtain rfl : stage = .proposed t := hstage
      rw [Method.next_proposed_of_ok heval]
      exact judge_state nm c (rows h) st _ t v
    refine ⟨a, hcurrent, ?_⟩
    rw [hafter]
    exact followsModel_after hfactors hnorm hsound.residualNorm_pos hsound.damping_nonneg hsolves v
  · -- a solve whose input is rejected proposes nothing
    simp only [course, dif_pos h, hc] at hstage
    cases hstage

end Run

end LeastSquares

end NonlinearSolve

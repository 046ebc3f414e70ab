import Mathlib.Analysis.SpecialFunctions.Sqrt
import NonlinearSolve.Proofs.Equations.LastStep
import NonlinearSolve.Proofs.Equations.Scaling
import NonlinearSolve.Proofs.TrustRegion.Positivity

/-! # The first step on a multiple of the identity

Where the unknowns and the residuals are all one and the Jacobian is `a` times the identity, the
first step subtracts `1 / a` from every unknown, as the linear model is zero there
(`AtOnes.propose_factorize`). With the right Jacobian, `a = 1`, the residuals `f x = x` are zero
there as well. With twice the right one they are halved: the step is accepted, the solve goes on,
and the approximate Jacobian is updated for it (`AtOnes.judge_two`). -/

namespace NonlinearSolve

open Matrix Scalar

namespace Equations

variable {n : Nat} {ε τ : ℝ} {z : Bool} {a : ℝ} {st : State ℝ n}

/-- No step has been accepted, the unknowns and the residuals are all one, and the Jacobian in the
place of the orthogonal factor is `a` times the identity. -/
structure AtOnes (a : ℝ) (st : State ℝ n) : Prop where
  jacobian : st.q.toMatrix = a • 1
  iteration : st.iteration = 1
  x : st.x = Vec.const n 1
  residuals : st.residuals = Vec.const n 1
  residualNorm : st.residualNorm = √n

/-! ### The step -/

/-- All columns have the norm `a`. -/
theorem AtOnes.colNorm (h : AtOnes a st) (ha : 0 ≤ a) :
    (QR.factor (Numerics.exact ε τ z) false st.q).colNorm = Vec.const n a := by
  refine Vec.ext fun j => ?_
  have hentry : ∀ i, st.q i j ^ 2 = if i = j then a ^ 2 else 0 := by
    intro i
    have hij : st.q i j = (a • (1 : Matrix (Fin n) (Fin n) ℝ)) i j :=
      congrFun (congrFun h.jacobian i) j
    rw [hij, Matrix.smul_apply, Matrix.one_apply, smul_eq_mul]
    split
    · rw [mul_one]
    · rw [mul_zero, zero_pow two_ne_zero]
  rw [colNorm_factor, NonlinearSolve.colNorm, Finset.sum_congr rfl fun i _ => hentry i,
    Finset.sum_ite_eq' Finset.univ j, if_pos (Finset.mem_univ j), Real.sqrt_sq ha, Vec.const_apply]

/-- The scaling and the radius at the first point. -/
theorem AtOnes.calibrate (h : AtOnes a st) (ha : 0 < a) (hn : 0 < n) :
    let st' := st.factorize (Numerics.exact ε τ z) (Config.default (Numerics.exact ε τ z))
    st'.scale = Vec.const n a ∧ st'.radius = 100 * (a * √n) := by
  intro st'
  set c : Settings ℝ := (Config.default (Numerics.exact ε τ z)).toSettings with hc
  have hnorms := h.colNorm (ε := ε) (τ := τ) (z := z) ha.le
  have hbound : c.stepBound = 100 := by
    change (100.0 : ℝ) = 100
    norm_num
  have hgrow : c.scaling.grow (Vec.const n a) (Vec.const n a) = Vec.const n a := by
    refine Vec.ext fun j => ?_
    have hscaling : c.scaling = .jacobian := rfl
    rw [hscaling, Scaling.grow, Scaling.isAdaptive, if_pos rfl, Vec.of_apply, Exact.maxNum_eq,
      max_self]
  have hcalibrate := Iterate.calibrate_ones (ε := ε) (τ := τ) (z := z) (c := c) rfl
    (hbound ▸ by norm_num) h.iteration h.x hn ha
  have hiterate : st'.toIterate = ((st.toIterate.calibrate (Numerics.exact ε τ z) c
      (Vec.const n a)).rescale c (Vec.const n a)) := by
    rw [← hnorms]
    rfl
  rw [hcalibrate] at hiterate
  exact ⟨(congrArg Iterate.scale hiterate).trans hgrow,
    (congrArg Iterate.radius hiterate).trans (congrArg (· * (a * √n)) hbound)⟩

/-- The first step leads to where the linear model is zero. -/
theorem AtOnes.propose_factorize (h : AtOnes a st) (ha : 1 ≤ a) (hn : 0 < n) :
    let st' := st.factorize (Numerics.exact ε τ z) (Config.default (Numerics.exact ε τ z))
    let t := (st'.propose (Numerics.exact ε τ z)).1
    t.step = Vec.const n (-a⁻¹) ∧ t.point = Vec.const n (1 - a⁻¹) ∧ t.length = √n ∧
      (st'.model t.step).get = 0 := by
  intro st' t
  have hpos : 0 < a := one_pos.trans_le ha
  have hsqrt : (0 : ℝ) < √n := Real.sqrt_pos.2 (Nat.cast_pos.2 hn)
  obtain ⟨hscale, hradius⟩ : st'.scale = Vec.const n a ∧ st'.radius = 100 * (a * √n) :=
    h.calibrate hpos hn
  have hrep : Represents st' (a • 1) := h.jacobian ▸ represents_factorize ε τ z _ st
  have hposition : st'.position = st.position := position_factorize _ _ st
  have hx : st'.x = Vec.const n 1 := (congrArg Position.x hposition).trans h.x
  have hres : st'.residuals = Vec.const n 1 :=
    (congrArg Position.residuals hposition).trans h.residuals
  have hregular : Dogleg.Regular st'.r st'.scale st'.radius := by
    refine ⟨hrep.diag_ne_zero ?_, fun j => ?_, ?_⟩
    · rw [det_smul, det_one, mul_one]
      exact pow_ne_zero _ hpos.ne'
    · rw [hscale, Vec.const_apply]
      exact hpos
    · rw [hradius]
      positivity
  have hsolution : Dogleg.gaussNewton (Numerics.exact ε τ z) st'.r st'.rhs = Vec.const n a⁻¹ := by
    refine Vec.ext fun j => ?_
    have hj := congrFun (hrep.mulVec_gaussNewton (ε := ε) (τ := τ) (z := z) hregular) j
    rw [smul_mulVec, one_mulVec, hres, Vec.const_apply] at hj
    rw [Vec.const_apply]
    exact eq_inv_of_mul_eq_one_right hj
  -- the step that solves the system is as long as the iterate, so it is not bent
  have hle : Secular.length (st'.scale.get *
      (Dogleg.gaussNewton (Numerics.exact ε τ z) st'.r st'.rhs).get) ≤ st'.radius := by
    rw [← Dogleg.scaledNorm_eq (ε := ε) (τ := τ) (z := z), hsolution, hscale, hradius,
      Numerics.scaledNorm_const, mul_inv_cancel₀ hpos.ne', abs_one, one_mul, ← mul_assoc]
    exact le_mul_of_one_le_left hsqrt.le (by linarith)
  obtain ⟨hstep, hmodel⟩ := propose_of_le hregular hle
  have ht : t.step = Vec.const n (-a⁻¹) := by
    refine Vec.ext fun j => (congrFun hstep j).trans ?_
    rw [hsolution, Pi.neg_apply, Vec.const_apply, Vec.const_apply]
  refine ⟨ht, ?_, ?_, hmodel⟩
  · refine Vec.ext fun j => ?_
    change (Vec.of fun j => st'.x j + t.step j) j = _
    rw [Vec.of_apply, ht, hx, Vec.const_apply, Vec.const_apply, Vec.const_apply, sub_eq_add_neg]
  · change (Numerics.exact ε τ z).scaledNorm st'.scale t.step = _
    rw [ht, hscale, Numerics.scaledNorm_const, mul_neg, mul_inv_cancel₀ hpos.ne', abs_neg, abs_one,
      one_mul]

/-! ### Half the way -/

/-- A step after which the residuals are half as large, where the linear model predicted zero, has
brought three quarters of what was predicted. -/
theorem gain_of_half {p : Vec ℝ n} (hn : 0 < n) (hnorm : st.residualNorm = √n)
    (hmodel : (st.model p).get = 0) :
    st.gain (Numerics.exact ε τ z) (st.model p) (1 / 2 * √n) = ⟨3 / 4, 1, 3 / 4⟩ := by
  have hsqrt : (0 : ℝ) < √n := Real.sqrt_pos.2 (Nat.cast_pos.2 hn)
  have hzero : st.model p = Vec.zero n :=
    Vec.ext fun i => (congrFun hmodel i).trans (Vec.zero_apply i).symm
  have hactual : reduction (-1) √n (1 / 2 * √n) = 3 / 4 := by
    rw [reduction, if_pos (by linarith), mul_div_cancel_right₀ _ hsqrt.ne', square]
    norm_num
  have hpredicted : reduction 0 √n 0 = 1 := by
    rw [reduction, if_pos hsqrt, zero_div, square, mul_zero, sub_zero]
  simp only [State.gain, hzero, hnorm, Numerics.vecNorm_exact_zero, hactual, hpredicted,
    if_pos one_pos, div_one]

/-- After such a step the trust region is twice as long as the step, and no step is slow. -/
theorem after_of_half {t : Proposal ℝ n} {f : Vec ℝ n} (hn : 0 < n) (hnorm : st.residualNorm = √n)
    (hradius : st.radius = √n) (hlength : t.length = √n)
    (hmodel : (st.model t.step).get = 0)
    (hf : (Numerics.exact ε τ z).vecNorm f = 1 / 2 * √n) :
    accepts (Numerics.exact ε τ z) st t f = true ∧
      st.after (Numerics.exact ε τ z) t f =
        { st with
          toIterate := Iterate.accept (Numerics.exact ε τ z)
            { st.toIterate with radius := √n / 0.5 } t.point f (1 / 2 * √n)
          failures := 0
          successes := st.successes + 1
          slowSteps := 0
          slowJacobians := 0 } := by
  have hgain : st.gain (Numerics.exact ε τ z) (st.model t.step) (1 / 2 * √n) =
      ⟨3 / 4, 1, 3 / 4⟩ := gain_of_half hn hnorm hmodel
  set g : Gain ℝ := ⟨3 / 4, 1, 3 / 4⟩ with hg
  have haccepted : g.acceptable = true := by
    rw [Gain.acceptable, decide_eq_true_iff]
    norm_num [hg]
  have hresize : st.resize g √n =
      { st with failures := 0, successes := st.successes + 1, radius := √n / 0.5 } := by
    have hgood : ¬ g.ratio < 0.1 := by norm_num [hg]
    have hratio : 0.5 ≤ g.ratio ∨ 1 < st.successes + 1 := .inl (by norm_num [hg])
    have hexact : ¬ mag (g.ratio - 1) ≤ 0.1 := by
      rw [Exact.mag_eq]
      norm_num [hg, abs_of_neg]
    have hmax : maxNum √n (√n / 0.5) = √n / 0.5 := by
      rw [Exact.maxNum_eq, max_eq_right]
      exact le_div_self (Real.sqrt_nonneg n) (by norm_num) (by norm_num)
    simp only [State.resize, if_neg hgood, if_pos hratio, if_neg hexact, hradius, hmax]
  have hslow : 0.001 ≤ g.actual := by norm_num [hg]
  have hslow' : 0.1 ≤ g.actual := by norm_num [hg]
  have hacc : accepts (Numerics.exact ε τ z) st t f = true := by
    rw [accepts, hf, hgain, haccepted]
  refine ⟨hacc, ?_⟩
  simp only [State.after, hacc, hf, hgain, hlength, hresize, if_true, State.track, if_pos hslow,
    if_pos hslow']

/-- With twice the right Jacobian, the first step halves the residuals. It is accepted, and the
solve goes on without another Jacobian, if there is budget left. -/
theorem AtOnes.judge_two (h : AtOnes 2 st) (hn : 0 < n) {budget : Nat}
    (hbudget : st.evaluations + 1 < budget) :
    let nm := Numerics.exact 0 τ z
    let c := Config.default nm
    let st' := ((st.factorize nm c).propose nm).2
    let t := ((st.factorize nm c).propose nm).1
    (st'.judge nm c budget t (Vec.const n (1 / 2))).1 = none ∧
      (st'.judge nm c budget t (Vec.const n (1 / 2))).2.stale = false := by
  intro nm c st' t
  have hsqrt : (0 : ℝ) < √n := Real.sqrt_pos.2 (Nat.cast_pos.2 hn)
  obtain ⟨-, hradius⟩ : (st.factorize nm c).scale = Vec.const n 2 ∧
    (st.factorize nm c).radius = 100 * (2 * √n) := h.calibrate two_pos hn
  obtain ⟨-, -, hlength, hmodel⟩ : t.step = Vec.const n (-2⁻¹) ∧
    t.point = Vec.const n (1 - 2⁻¹) ∧ t.length = √n ∧ (st'.model t.step).get = 0 :=
    h.propose_factorize one_le_two hn
  have hposition : (st.factorize nm c).position = st.position := position_factorize nm c st
  have hnorm : st'.residualNorm = √n :=
    (congrArg Position.residualNorm hposition).trans h.residualNorm
  have hit : (st.factorize nm c).iteration = 1 :=
    (congrArg Position.iteration hposition).trans h.iteration
  have hradius' : st'.radius = √n := by
    change (if (st.factorize nm c).iteration = 1 then minNum _ t.length else _) = _
    rw [if_pos hit, hradius, hlength, Exact.minNum_eq, min_eq_right (by linarith)]
  obtain ⟨hacc, hafter⟩ := after_of_half (ε := 0) (τ := τ) (z := z) (f := Vec.const n (1 / 2)) hn
    hnorm hradius' hlength hmodel (by rw [Numerics.vecNorm_const, abs_of_pos (by norm_num)])
  -- with the precision zero the only reason to end is a budget that is used up
  have hstop : (st'.after nm t (Vec.const n (1 / 2))).stop? nm c budget true t.length = none := by
    have hevals : st'.evaluations = st.evaluations + 1 :=
      congrArg (· + 1) (evaluations_factorize nm c st)
    have hxtol : c.xtol = 0 := Real.sqrt_zero
    have hwide : ¬ √(n : ℝ) / 0.5 ≤ 0 := not_le.2 (div_pos hsqrt (by norm_num))
    have hzero : (1 / 2 * √(n : ℝ) == 0) = false :=
      (Exact.beq_eq_false_iff _ _).2 (mul_pos (by norm_num) hsqrt).ne'
    have hlong : ¬ 0.1 * maxNum (0.1 * (√(n : ℝ) / 0.5)) √n ≤ 0 := by
      rw [Exact.maxNum_eq]
      exact not_le.2 (mul_pos (by norm_num) (lt_max_of_lt_right hsqrt))
    have hleft : ¬ budget ≤ st'.evaluations := by omega
    have heps : nm.epsilon = 0 := rfl
    rw [hafter]
    simp only [State.stop?, Iterate.accept, hxtol, heps, zero_mul, hlength, hzero, Bool.and_false,
      Bool.or_false, hwide, hlong, hleft, decide_false, Bool.false_eq_true, if_false]
    rfl
  rw [judge_eq, hacc, hstop, State.continued, hafter]
  exact ⟨rfl, rfl⟩

end Equations

end NonlinearSolve

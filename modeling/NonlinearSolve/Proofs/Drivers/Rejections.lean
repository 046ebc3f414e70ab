import NonlinearSolve.Proofs.Drivers.WellDefined
import NonlinearSolve.Proofs.LeastSquares.Rejections

/-! # Rejected steps in minimizations

Whichever way a minimization linearizes, it does not reject steps for ever
(`minimizers_limit_rejections`). -/

namespace NonlinearSolve

open LeastSquares

variable {σ : Type} {m n : Nat}

/-- In exact arithmetic the three minimizations limit the steps that they reject, whatever the
problem and the settings are. -/
theorem minimizers_limit_rejections (ε : ℝ) {τ : ℝ} (hτ : 0 < τ) (z : Bool) (c : Config ℝ)
    (x : Vec ℝ n) (s : σ) (h : n ≤ m) :
    let nm := Numerics.exact ε τ z
    (∀ p : JacobianProblem σ ℝ m n,
      LimitsRejections nm c (course nm c 100 p.toProblem id (fun h => analytic nm h p) x s) h
        p.toProblem) ∧
    (∀ p : Problem σ ℝ m n,
      LimitsRejections nm c (course nm c 200 p id (fun h => numerical nm h c.toSettings p) x s) h
        p) ∧
    (∀ p : RowProblem σ ℝ m n,
      LimitsRejections nm c
        (course nm c 100 p.toProblem (fun _ => Nat.le_refl n) (fun _ => rowwise nm p) x s)
        (Nat.le_refl n) p.toProblem) := by
  intro nm
  refine ⟨?_, ?_, ?_⟩
  · intro p
    exact limitsRejections_run id hτ c p.toProblem (recounts_analytic nm · p)
      (tapers_analytic ε τ z · p) h (factors_analytic ε τ z h p) x s
  · intro p
    exact limitsRejections_run id hτ c p (recounts_numerical nm · c.toSettings p)
      (tapers_numerical ε τ z · c.toSettings p) h (factors_numerical ε τ z h c.toSettings p) x s
  · intro p
    exact limitsRejections_run (fun _ => Nat.le_refl n) hτ c p.toProblem
      (fun _ => recounts_rowwise nm p) (fun _ => tapers_rowwise ε τ z p) h
      (factors_rowwise ε τ z p) x s

/-- A residual that is one when it is first evaluated and ten ever after. The Jacobian is one. -/
noncomputable def tenfold : JacobianProblem Nat ℝ 1 1 where
  evaluate _ s := (.ok (Vec.const 1 (if s = 0 then 1 else 10)), s + 1)
  jacobian _ s := (.ok (Mat.identity 1), s)

/-- The first iteration begins a step, because the cosine is one, with the radius that the settings
give. -/
theorem prepared_tenfold :
    let nm := Numerics.exact (1 / 100) 1 false
    let c := Config.default nm
    let x := Vec.const 1 (1 : ℝ)
    let mo := course nm c 100 tenfold.toProblem id (fun h => analytic nm h tenfold) x 0 1
    mo.stage = .prepared ∧ mo.world = 1 ∧ mo.state.residualNorm = 1 ∧ mo.state.length = 1 ∧
      mo.state.radius = 100 := by
  intro nm c x mo
  have hc : c.fault? 1 = none := Config.fault?_default one_ne_zero (by norm_num)
  have hnorm (v : Vec ℝ 1) : nm.vecNorm v = |v 0| := by
    rw [Numerics.vecNorm_exact, Fin.sum_univ_one, Real.sqrt_sq_eq_abs]
  set it := ((Iterate.start c.toSettings x).evaluate nm tenfold.toProblem 0).2.1
  set lin := (State.ofIterate it).factorize nm le_rfl (Mat.identity 1)
  have hmo : mo = ⟨.ofPreparation (lin.2.adapt nm c le_rfl lin.1).1,
      (lin.2.adapt nm c le_rfl lin.1).2, 1, x⟩ := by
    simp only [mo]
    rw [course_eq le_rfl hc, Method.course_succ, Method.course_zero]
    exact Method.next_ready _ _ _
  have hstage : mo.stage = .prepared := by
    have hcosine : c.gtol < columnCosine (Mat.identity 1) x 0 := by
      rw [columnCosine_of_eq_mul _ _ ⟨0, by simp⟩ (b := 1) one_ne_zero
        (fun i => by simp [x, Subsingleton.elim i 0])]
      change (1 / 100 : ℝ) * 30.0 < 1
      norm_num
    refine prepared_of_lt_columnCosine (k := 0) (recounts_analytic nm · tenfold) le_rfl
      (factors_analytic (1 / 100) 1 false le_rfl tenfold)
      (measures_analytic (1 / 100) 1 false le_rfl tenfold) ?_ (f := x) ?_
      (Vec.const_ne_zero one_pos one_ne_zero) (fun _ _ => rfl) ⟨0, by simp⟩ hcosine
    · rw [course_eq le_rfl hc]
      rfl
    · rw [course_eq le_rfl hc]
      rfl
  have hbound : c.stepBound = 100 := by
    change (100.0 : ℝ) = 100
    norm_num
  have hnorms : lin.1 = Vec.const 1 1 := by
    refine Vec.ext fun j => ?_
    change (QR.factor nm true (Mat.identity 1)).colNorm j = _
    rw [QR.factor_colNorm, Vec.of_apply, hnorm, Subsingleton.elim j 0]
    simp
  have hcalibrate : lin.2.toIterate.calibrate nm c.toSettings lin.1 =
      { lin.2.toIterate with scale := Vec.const 1 1, length := 1, radius := 100 } := by
    rw [hnorms]
    refine (Iterate.calibrate_ones rfl (hbound ▸ by norm_num) rfl rfl one_pos one_pos).trans ?_
    rw [hbound, Nat.cast_one, Real.sqrt_one, mul_one, mul_one]
  obtain ⟨hradius', hlength'⟩ := radius_adapt nm c le_rfl lin.2 lin.1
  rw [hmo] at hstage ⊢
  refine ⟨hstage, rfl, ?_, hlength'.trans (congrArg Iterate.length hcalibrate),
    hradius'.trans (congrArg Iterate.radius hcalibrate)⟩
  have hpos := congrArg Position.residualNorm (position_adapt nm c le_rfl lin.2 lin.1)
  refine hpos.trans ?_
  change nm.vecNorm x = 1
  rw [hnorm]
  simp [x]

/-- The first step is then proposed, and nothing is evaluated for that. -/
theorem proposed_tenfold :
    let nm := Numerics.exact (1 / 100) 1 false
    let c := Config.default nm
    let x := Vec.const 1 (1 : ℝ)
    let mo := course nm c 100 tenfold.toProblem id (fun h => analytic nm h tenfold) x 0
    ∃ t b, mo 2 = ⟨.proposed t, ((mo 1).state.propose nm le_rfl).2, 1, b⟩ := by
  intro nm c x mo
  have hc : c.fault? 1 = none := Config.fault?_default one_ne_zero (by norm_num)
  obtain ⟨hstage, hworld, -⟩ := prepared_tenfold
  change (mo 1).stage = _ at hstage
  change (mo 1).world = _ at hworld
  have hnext : mo 2 = _ := course_succ_of_prepared le_rfl hc rfl hstage
  rw [hworld] at hnext
  exact ⟨_, _, hnext⟩

/-- The bound for the precision `1 / 100`, the radius `100` and an iterate of length `1`. -/
theorem rejectionBound_tenfold : rejectionBound (1 / 100) 100 1 = 15 := by
  have hceil : ⌈Real.logb (2 : ℕ) (100 / (1 / 100 * 1))⌉ = 14 := by
    rw [Nat.cast_ofNat, Int.ceil_eq_iff, Real.lt_logb_iff_rpow_lt one_lt_two (by norm_num),
      Real.logb_le_iff_le_rpow one_lt_two (by norm_num)]
    norm_num
  rw [rejectionBound, hceil]
  rfl

/-- The first iteration for `tenfold` rejects its first step, after which the radius is at most half
as large. Fifteen steps are all that it could reject if the residuals stayed as large as they have
become, even if the budget were zero. -/
theorem minimizers_limit_rejections_tenfold :
    let nm := Numerics.exact (1 / 100) 1 false
    let c := Config.default nm
    let x := Vec.const 1 (1 : ℝ)
    let mo := course nm c 100 tenfold.toProblem id (fun h => analytic nm h tenfold) x 0
    let states := fun i => (fun st => (st.trial nm c 0 le_rfl (Vec.const 1 10)).2)^[i] (mo 1).state
    rejects nm le_rfl tenfold.toProblem (mo 2) = true ∧ (mo 2).state.Shrinks (mo 3).state ∧
    (∀ d, (mo (1 + d)).state.iteration = (mo 1).state.iteration →
      Nat.count (fun i => rejects nm le_rfl tenfold.toProblem (mo (1 + i)) = true) d ≤ 15) ∧
    ∃ i < 15, (states i).Leaves nm c 0 le_rfl (Vec.const 1 10) := by
  intro nm c x mo states
  obtain ⟨hstage, -, hnorm, hlength, hradius⟩ := prepared_tenfold
  change (mo 1).stage = _ at hstage
  change (mo 1).state.length = _ at hlength
  change (mo 1).state.radius = _ at hradius
  obtain ⟨t, b, hmo⟩ := proposed_tenfold
  change mo 2 = _ at hmo
  obtain ⟨hmin, -, -⟩ := minimizers_limit_rejections (σ := Nat) (m := 1) (1 / 100) one_pos false c
    x 0 le_rfl
  have hlimits := hmin tenfold
  have hε : 0 < nm.epsilon := by
    change (0 : ℝ) < 1 / 100
    norm_num
  have hpos : 0 < (mo 1).state.length := hlength ▸ one_pos
  have hbound : rejectionBound nm.epsilon (mo 1).state.radius (mo 1).state.length = 15 := by
    rw [hradius, hlength]
    exact rejectionBound_tenfold
  have hproposed : (mo 2).stage = .proposed t := congrArg Moment.stage hmo
  have heval : tenfold.evaluate t.point (mo 2).world = (.ok (Vec.const 1 10), 2) := by
    rw [show (mo 2).world = 1 from congrArg Moment.world hmo]
    rfl
  have hrej : accepts nm le_rfl (mo 2).state t (Vec.const 1 10) = false := by
    refine rejected_of_growth ?_
    rw [hmo, Numerics.vecNorm_exact, Fin.sum_univ_one, Real.sqrt_sq_eq_abs]
    refine hnorm.trans_le ?_
    change (1 : ℝ) ≤ 0.1 * |10|
    norm_num
  refine ⟨?_, ?_, ?_, ?_⟩
  · simp only [rejects, hproposed, heval, hrej, Bool.not_false]
  · exact hlimits.poor 2 t _ 2 hproposed heval (hlimits.rejected 2 t _ 2 hproposed heval hrej)
  · intro d hd
    have hle := hlimits.bounded 1 hε hstage hpos d hd
    rw [hbound] at hle
    exact_mod_cast hle
  · obtain ⟨i, hi, hleaves⟩ := hlimits.left 1 0 states (fun _ => Vec.const 1 10) hε hstage hpos rfl
      fun i => Function.iterate_succ_apply' _ i _
    rw [hbound] at hi
    exact ⟨i, by exact_mod_cast hi, hleaves⟩

end NonlinearSolve

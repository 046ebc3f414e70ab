import Mathlib.Analysis.SpecialFunctions.Log.Base
import Mathlib.Data.Nat.Count
import NonlinearSolve.Proofs.Checked.Trial
import NonlinearSolve.Proofs.LeastSquares.Predictions

/-! # Rejected steps

After a poor trial step the trust region is at most half as large as before, and every step that is
rejected is poor (`shrinks_after`, `ratio_le_of_rejected`). A rejected step leaves the length of the
iterate alone, and the solve ends as soon as the radius is within the precision of that length
(`exists_stop?_atTolerance`). So the number of steps that an iteration rejects is bounded by a
logarithm (`rejectionBound`), whatever the residuals at the proposed points are
(`exists_trial_leaves`), and also along a solve (`rejections_le`). -/

namespace NonlinearSolve

open Scalar

/-- The solve ends because a tolerance is met, or is too small for any further improvement. -/
def Termination.AtTolerance : Termination → Prop
  | converged _ _ => True
  | noImprovementPossible _ => True
  | _ => False

namespace LeastSquares

variable {σ : Type} {m r n : Nat} {ε τ : ℝ} {z : Bool}

/-! ### Poor steps -/

/-- The trust region has shrunk by half at least, but not to a point, and the damping has grown. -/
structure State.Shrinks (st st' : State ℝ m r n) : Prop where
  radius_pos : 0 < st'.radius
  radius_le : st'.radius ≤ st.radius / 2
  damping_eq : ∃ factor ∈ Set.Icc (2 : ℝ) 10, st'.damping = factor * st.damping

/-- The trust region shrinks by half at least: the minimum of the parabola lies in the first half of
the step, if the sum of squares falls at first and has grown in the end. -/
theorem Gain.shrink_le_half {g : Gain ℝ} (hslope : g.slope ≤ 0) (norm norm1 : ℝ) :
    g.shrink norm norm1 ≤ 0.5 := by
  rw [Gain.shrink]
  set t := if 0 ≤ g.actual then 0.5 else 0.5 * g.slope / (g.slope + 0.5 * g.actual) with ht
  by_cases hsmall : norm ≤ 0.1 * norm1 ∨ t < 0.1
  · rw [if_pos hsmall]
    norm_num
  · rw [if_neg hsmall, ht]
    by_cases hactual : 0 ≤ g.actual
    · rw [if_pos hactual]
    · have hneg : g.slope + 0.5 * g.actual < 0 := by linarith
      rw [if_neg hactual, div_le_iff_of_neg hneg]
      linarith

/-- A proposal does not make the trust region larger. -/
theorem radius_propose_le (nm : Numerics ℝ) (h : n ≤ r) (st : State ℝ m r n) :
    (st.propose nm h).2.radius ≤ st.radius := by
  change (st.toIterate.propose nm _).2.radius ≤ st.radius
  unfold Iterate.propose
  simp only
  split
  · rw [Exact.minNum_eq]
    exact min_le_left _ _
  · exact le_rfl

section Step

variable {nm : Numerics ℝ} {h : n ≤ r} {st : State ℝ m r n} {t : Proposal ℝ n} {v : Vec ℝ m}

/-- A poor step shrinks the trust region. -/
theorem shrinks_after (hradius : 0 < st.radius) (hlength : 0 < t.length)
    (hratio : (st.gain nm h t (nm.vecNorm v)).ratio ≤ 0.25) :
    st.Shrinks (st.after nm h t v) := by
  obtain ⟨hradius', hdamping'⟩ := resize_after nm h st t v
  obtain ⟨hresize, hdamp⟩ := resize_of_poor st hratio t.length (nm.vecNorm v)
  have hlow := Iterate.Proper.tenth_le_shrink (st.gain nm h t (nm.vecNorm v)) st.residualNorm
    (nm.vecNorm v)
  have hhigh := Gain.shrink_le_half (st.slope_nonpos nm h t (nm.vecNorm v)) st.residualNorm
    (nm.vecNorm v)
  set factor := (st.gain nm h t (nm.vecNorm v)).shrink st.residualNorm (nm.vecNorm v)
  have hpos : 0 < factor := lt_of_lt_of_le (by norm_num) hlow
  have hmin : 0 < min st.radius (t.length / 0.1) :=
    lt_min hradius (div_pos hlength (by norm_num))
  refine ⟨?_, ?_, 1 / factor, ⟨?_, ?_⟩, ?_⟩
  · rw [hradius', hresize]
    exact mul_pos hpos hmin
  · rw [hradius', hresize]
    calc factor * min st.radius (t.length / 0.1)
        ≤ 0.5 * st.radius := mul_le_mul hhigh (min_le_left _ _) hmin.le (by norm_num)
      _ = st.radius / 2 := by ring
  · rw [le_div_iff₀ hpos]
    linarith
  · rw [div_le_iff₀ hpos]
    linarith
  · rw [hdamping', hdamp]
    ring

/-- A step that is rejected is a poor one. -/
theorem ratio_le_of_rejected (hrej : accepts nm h st t v = false) :
    (st.gain nm h t (nm.vecNorm v)).ratio ≤ 0.25 := by
  rw [accepts, Gain.acceptable, decide_eq_false_iff_not, not_le] at hrej
  exact hrej.le.trans (by norm_num)

/-- A step is rejected if the residuals grow tenfold. -/
theorem rejected_of_growth (hgrowth : st.residualNorm ≤ 0.1 * nm.vecNorm v) :
    accepts nm h st t v = false := by
  set g := st.gain nm h t (nm.vecNorm v) with hg
  have hpredicted : 0 ≤ g.predicted :=
    add_nonneg (mul_self_nonneg _) (div_nonneg (mul_self_nonneg _) (by norm_num))
  have hactual : g.actual = -1 := if_neg (not_lt.2 hgrowth)
  have hratio : g.ratio ≤ 0 := by
    rw [show g.ratio = if g.predicted == 0 then 0 else g.actual / g.predicted from rfl, hactual]
    split
    · exact le_rfl
    · exact div_nonpos_of_nonpos_of_nonneg (by norm_num) hpredicted
  rw [accepts, ← hg, Gain.acceptable, decide_eq_false_iff_not, not_le]
  exact hratio.trans_lt (by norm_num)

/-- A rejected step does not change the length of the iterate. -/
theorem length_after_of_rejected (hrej : accepts nm h st t v = false) :
    (st.after nm h t v).length = st.length := by
  obtain ⟨radius, heq⟩ := iterate_after_of_rejected hrej
  rw [heq]

/-- Only a step that is accepted begins another iteration. -/
theorem rejected_of_iteration_after (hsame : (st.after nm h t v).iteration = st.iteration) :
    accepts nm h st t v = false := by
  by_contra hacc
  have hpos := position_after nm h st t v
  rw [if_pos (Bool.eq_true_of_not_eq_false hacc)] at hpos
  have hnew : (st.after nm h t v).iteration = st.iteration + 1 := congrArg Position.iteration hpos
  omega

/-! ### The end at a tolerance -/

/-- A radius within the precision of the length is an end, whatever the budget is. -/
theorem exists_stop?_atTolerance (c : Config ℝ) (budget : Nat) (g : Gain ℝ)
    (hsmall : st.radius ≤ nm.epsilon * st.length) :
    ∃ reason, st.stop? nm c budget g = some reason ∧ reason.AtTolerance := by
  rw [State.stop?]
  simp only [if_pos hsmall]
  split
  · exact ⟨_, rfl, trivial⟩
  · split <;> exact ⟨_, rfl, trivial⟩

/-- The verdict on a rejected step comes from the tests on the state after it. -/
theorem judge_of_rejected (c : Config ℝ) (budget : Nat) (hrej : accepts nm h st t v = false) :
    (st.judge nm c budget h t v).1 =
      (st.after nm h t v).stop? nm c budget (st.gain nm h t (nm.vecNorm v)) := by
  rw [judge_eq, hrej, Bool.false_and, if_neg Bool.false_ne_true]

/-- A rejected step after which the solve does not end at a tolerance leaves a radius above the
precision of the length. -/
theorem lt_radius_after (c : Config ℝ) (budget : Nat) (hrej : accepts nm h st t v = false)
    (hgo : ∀ reason, (st.judge nm c budget h t v).1 = some reason → ¬ reason.AtTolerance) :
    nm.epsilon * st.length < (st.after nm h t v).radius := by
  by_contra hsmall
  rw [← length_after_of_rejected hrej, not_lt] at hsmall
  obtain ⟨reason, hstop, htol⟩ := exists_stop?_atTolerance c budget
    (st.gain nm h t (nm.vecNorm v)) hsmall
  exact hgo reason ((judge_of_rejected c budget hrej).trans hstop) htol

end Step

/-! ### The number of rejected steps -/

/-- How many steps can be rejected in an iteration in which the trust region has the given radius at
first, and the iterate has the given length. -/
noncomputable def rejectionBound (ε radius length : ℝ) : ℤ :=
  max 1 (⌈Real.logb (2 : ℕ) (radius / (ε * length))⌉ + 1)

/-- The bound allows for one rejected step. -/
theorem one_le_rejectionBound (ε radius length : ℝ) : 1 ≤ rejectionBound ε radius length :=
  le_max_left _ _

/-- While the radius halves it stays above the precision of the length only so often. -/
theorem lt_rejectionBound {radius length : ℝ} (hε : 0 < ε) (hlength : 0 < length) {count : Nat}
    (hlt : 2 ^ count * (ε * length) < radius) :
    (count : ℤ) + 1 < rejectionBound ε radius length := by
  have hprecision : 0 < ε * length := mul_pos hε hlength
  have hpow : (2 : ℝ) ^ count < radius / (ε * length) := (lt_div_iff₀ hprecision).2 hlt
  have hlog : (count : ℝ) < Real.logb (2 : ℕ) (radius / (ε * length)) := by
    rw [Nat.cast_ofNat, Real.lt_logb_iff_rpow_lt one_lt_two ((pow_pos two_pos count).trans hpow),
      Real.rpow_natCast]
    exact hpow
  have hceil : (count : ℤ) < ⌈Real.logb (2 : ℕ) (radius / (ε * length))⌉ := by
    rw [Int.lt_ceil, Int.cast_natCast]
    exact hlog
  exact lt_max_of_lt_right (by omega)

/-- Since the state `first` so many steps have been rejected that the radius has halved `count`
times. After each of them it was above the precision of the length, which has not changed. -/
structure State.Narrowed (ε : ℝ) (st first : State ℝ m r n) (count : Nat) : Prop where
  length_eq : st.length = first.length
  radius_le : 2 ^ count * st.radius ≤ first.radius
  lt_radius : 0 < count → 2 ^ count * (ε * first.length) < first.radius

namespace State.Narrowed

variable {first st : State ℝ m r n} {count : Nat}

/-- Before the first rejected step nothing has halved. -/
theorem refl (ε : ℝ) (st : State ℝ m r n) : st.Narrowed ε st 0 where
  length_eq := rfl
  radius_le := by rw [pow_zero, one_mul]
  lt_radius hpos := absurd hpos (lt_irrefl 0)

/-- One more step may be rejected than those after which the radius is known. -/
theorem add_one_le (hn : st.Narrowed ε first count) (hε : 0 < ε) (hlength : 0 < first.length) :
    (count : ℤ) + 1 ≤ rejectionBound ε first.radius first.length := by
  obtain rfl | hpos := Nat.eq_zero_or_pos count
  · exact one_le_rejectionBound _ _ _
  · exact (lt_rejectionBound hε hlength (hn.lt_radius hpos)).le

/-- Proposing a step does not narrow the trust region. -/
theorem propose (hn : st.Narrowed ε first count) (nm : Numerics ℝ) (h : n ≤ r) :
    (st.propose nm h).2.Narrowed ε first count := by
  refine ⟨hn.length_eq, le_trans ?_ hn.radius_le, hn.lt_radius⟩
  exact mul_le_mul_of_nonneg_left (radius_propose_le nm h st) (pow_nonneg zero_le_two count)

/-- A rejected step halves the radius once more. -/
theorem after {nm : Numerics ℝ} {h : n ≤ r} {t : Proposal ℝ n} {v : Vec ℝ m}
    (hn : st.Narrowed nm.epsilon first count) (hradius : 0 < st.radius) (hlength : 0 < t.length)
    (hrej : accepts nm h st t v = false)
    (hlt : nm.epsilon * st.length < (st.after nm h t v).radius) :
    (st.after nm h t v).Narrowed nm.epsilon first (count + 1) := by
  have hhalf := (shrinks_after hradius hlength (ratio_le_of_rejected hrej)).radius_le
  have hpow : (0 : ℝ) < 2 ^ count := pow_pos two_pos count
  have hle : 2 ^ (count + 1) * (st.after nm h t v).radius ≤ first.radius := by
    calc (2 : ℝ) ^ (count + 1) * (st.after nm h t v).radius
        ≤ 2 ^ (count + 1) * (st.radius / 2) := by gcongr
      _ = 2 ^ count * st.radius := by ring
      _ ≤ first.radius := hn.radius_le
  refine ⟨(length_after_of_rejected hrej).trans hn.length_eq, hle, fun _ => ?_⟩
  rw [hn.length_eq] at hlt
  exact (mul_lt_mul_of_pos_left hlt (pow_pos two_pos _)).trans_le hle

end State.Narrowed

/-! ### Steps one after the other -/

/-- A trial step from the state `st`: the verdict on it, and the state after it, if the residuals at
the proposed point are `v`. -/
def State.trial {α : Type} [Scalar α] (nm : Numerics α) (c : Config α) (budget : Nat) (h : n ≤ r)
    (st : State α m r n) (v : Vec α m) : Option Termination × State α m r n :=
  (st.propose nm h).2.judge nm c budget h (st.propose nm h).1 v

/-- A trial step from the state `st` leaves the iteration: it is accepted, or the solve ends at a
tolerance. -/
def State.Leaves (nm : Numerics ℝ) (c : Config ℝ) (budget : Nat) (h : n ≤ r) (st : State ℝ m r n)
    (v : Vec ℝ m) : Prop :=
  accepts nm h (st.propose nm h).2 (st.propose nm h).1 v = true ∨
    ∃ reason, (st.trial nm c budget h v).1 = some reason ∧ reason.AtTolerance

/-- A trial step that does not leave the iteration is rejected, and another one can be made. -/
theorem State.Narrowed.trial {c : Config ℝ} {budget : Nat} {h : n ≤ r} {first st : State ℝ m r n}
    {count : Nat} (hn : st.Narrowed ε first count) (hτ : 0 < τ) (hst : st.Sound h) {v : Vec ℝ m}
    (hstay : ¬ st.Leaves (Numerics.exact ε τ z) c budget h v) :
    (st.trial (Numerics.exact ε τ z) c budget h v).2.Sound h ∧
      (st.trial (Numerics.exact ε τ z) c budget h v).2.Narrowed ε first (count + 1) := by
  set nm := Numerics.exact ε τ z
  obtain ⟨hacc, hgo⟩ := not_or.1 hstay
  obtain ⟨hsound, hlength⟩ := sound_propose (ε := ε) (z := z) hst hτ
  have hrej : accepts nm h (st.propose nm h).2 (st.propose nm h).1 v = false :=
    Bool.eq_false_iff.2 hacc
  have hlt : nm.epsilon * (st.propose nm h).2.length <
      ((st.propose nm h).2.after nm h (st.propose nm h).1 v).radius :=
    lt_radius_after c budget hrej
      fun reason hverdict htol => hgo ⟨reason, hverdict, htol⟩
  rw [State.trial, judge_state]
  refine ⟨(sound_after hsound hlength v).2 ?_, ?_⟩
  · rw [fresh_after]
    exact hrej
  · exact (hn.propose nm h).after hsound.radius_pos hlength hrej hlt

/-- Whatever the residuals at the proposed points and the budget are: before there could be too many
rejected steps, one of the trial steps leaves the iteration. -/
theorem exists_trial_leaves {c : Config ℝ} {budget : Nat} {h : n ≤ r} (hε : 0 < ε) (hτ : 0 < τ)
    {states : Nat → State ℝ m r n} {v : Nat → Vec ℝ m} (hst : (states 0).Sound h)
    (hlength : 0 < (states 0).length)
    (hnext : ∀ i, states (i + 1) =
      ((states i).trial (Numerics.exact ε τ z) c budget h (v i)).2) :
    ∃ i : Nat, (i : ℤ) < rejectionBound ε (states 0).radius (states 0).length ∧
      (states i).Leaves (Numerics.exact ε τ z) c budget h (v i) := by
  by_contra hnone
  have hstay (i : Nat) (hi : (i : ℤ) < rejectionBound ε (states 0).radius (states 0).length) :
      ¬ (states i).Leaves (Numerics.exact ε τ z) c budget h (v i) :=
    fun hleaves => hnone ⟨i, hi, hleaves⟩
  -- then the radius would halve at every step up to the bound
  have hnarrowed (i : Nat) (hi : (i : ℤ) ≤ rejectionBound ε (states 0).radius (states 0).length) :
      (states i).Sound h ∧ (states i).Narrowed ε (states 0) i := by
    induction i with
    | zero => exact ⟨hst, .refl ε (states 0)⟩
    | succ i ih =>
      obtain ⟨hsound, hn⟩ := ih (by omega)
      rw [hnext]
      exact hn.trial hτ hsound (hstay i (by omega))
  have hpos := one_le_rejectionBound ε (states 0).radius (states 0).length
  obtain ⟨count, hcount⟩ := Int.eq_ofNat_of_zero_le (zero_le_one.trans hpos)
  have hlast := (hnarrowed count hcount.ge).2.add_one_le hε hlength
  omega

/-! ### Along a solve -/

/-- Whether the move after the moment rejects a step. -/
def rejects {α : Type} [Scalar α] (nm : Numerics α) (h : n ≤ r) (p : Problem σ α m n)
    (mo : Moment σ α n (State α m r n)) : Bool :=
  match mo.stage with
  | .proposed t =>
    match p.evaluate t.point mo.world with
    | (.ok v, _) => !accepts nm h mo.state t v
    | (.error _, _) => false
  | _ => false

section Moves

variable {c : Config ℝ} {budget : Nat} {h : n ≤ r} {p : Problem σ ℝ m n}
  {linearize : Linearize σ ℝ m r n} {first : State ℝ m r n}
  {mo : Moment σ ℝ n (State ℝ m r n)} {count : Nat}

/-- The move that draws the consequences of the residuals at a proposed point. -/
theorem next_of_proposed {nm : Numerics ℝ} {t : Proposal ℝ n} {v : Vec ℝ m} {s' : σ}
    (hstage : mo.stage = .proposed t) (heval : p.evaluate t.point mo.world = (.ok v, s')) :
    (method nm c budget h p linearize).next (accepts nm h) p mo =
      { stage := .ofVerdict (mo.state.judge nm c budget h t v).1
        state := mo.state.after nm h t v
        world := s'
        base := if accepts nm h mo.state t v then t.point else mo.base } := by
  obtain ⟨stage, st, s, b⟩ := mo
  obtain rfl : stage = .proposed t := hstage
  rw [Method.next_proposed_of_ok heval, ← judge_state nm c h st budget t v]
  rfl

/-- A move within an iteration that has been linearized stays in it, and halves the radius if it
rejects a step. -/
theorem narrowed_next (hn : mo.state.Narrowed ε first count) (hmo : SoundAt h mo)
    (hlin : Linearized mo) :
    let nm := Numerics.exact ε τ z
    let mo' := (method nm c budget h p linearize).next (accepts nm h) p mo
    mo'.state.iteration = mo.state.iteration → (∀ reason, mo'.stage ≠ .ended reason) →
      Linearized mo' ∧
        mo'.state.Narrowed ε first (count + if rejects nm h p mo = true then 1 else 0) := by
  intro nm mo' hsame hgoes
  obtain ⟨stage, st, s, b⟩ := mo
  cases stage with
  | ready =>
    -- a preparation without a linearization changes nothing
    have hprepare : prepare nm c h p linearize st s = (none, st, s) := by
      rw [prepare, show st.fresh = false from hlin, if_neg Bool.false_ne_true]
    have hnext : mo' = ⟨.ofPreparation (prepare nm c h p linearize st s).1,
        (prepare nm c h p linearize st s).2.1, (prepare nm c h p linearize st s).2.2, b⟩ :=
      Method.next_ready st s b
    rw [hnext, hprepare]
    exact ⟨trivial, hn⟩
  | prepared => exact ⟨trivial, hn.propose nm h⟩
  | proposed t =>
    obtain ⟨hst, hlength⟩ := hmo
    rcases heval : p.evaluate t.point s with ⟨e | v, s'⟩
    · have hnext : mo' = ⟨.ended (.user e), st, s', b⟩ := Method.next_proposed_of_error heval
      rw [hnext] at hgoes
      exact absurd rfl (hgoes (.user e))
    · have hnext : mo' = ⟨.ofVerdict (st.judge nm c budget h t v).1, st.after nm h t v, s',
          if accepts nm h st t v then t.point else b⟩ := next_of_proposed rfl heval
      rw [hnext] at hsame hgoes ⊢
      have hrej : accepts nm h st t v = false := rejected_of_iteration_after hsame
      have hgo : (st.judge nm c budget h t v).1 = none :=
        Option.eq_none_iff_forall_ne_some.2 fun reason hverdict =>
          hgoes reason (Stage.ofVerdict_eq_ended_iff.2 hverdict)
      have hlt : nm.epsilon * st.length < (st.after nm h t v).radius := by
        refine lt_radius_after c budget hrej ?_
        intro reason hverdict
        rw [hgo] at hverdict
        cases hverdict
      have hrejects : rejects nm h p ⟨.proposed t, st, s, b⟩ = true := by
        simp only [rejects, heval, hrej, Bool.not_false]
      rw [hrejects, if_pos rfl, hgo]
      exact ⟨(fresh_after nm h st t v).trans hrej, hn.after hst.radius_pos hlength hrej hlt⟩
  | ended reason => exact hlin.elim

end Moves

section Course

variable {c : Config ℝ} {budget : Nat} {h : n ≤ r} {p : Problem σ ℝ m n}
  {linearize : Linearize σ ℝ m r n} {jac : Jacobian σ ℝ m r n} {x : Vec ℝ n} {s : σ}

/-- Iterations are counted upwards. -/
theorem monotone_iteration (nm : Numerics ℝ) (hl : linearize.Recounts) :
    Monotone fun k => ((method nm c budget h p linearize).course (accepts nm h) nm c.toSettings p x
      s k).state.iteration := by
  refine monotone_nat_of_le_succ ?_
  intro k
  have hme : (method nm c budget h p linearize).Steady (accepts nm h) nm := steady_method hl
  rw [Method.course_succ]
  obtain ⟨hpos, -⟩ | ⟨t, v, s', -, -, -, hpos, -⟩ := hme.next_cases (p := p)
    ((method nm c budget h p linearize).course (accepts nm h) nm c.toSettings p x s k)
  · exact (congrArg Position.iteration hpos).ge
  · exact (Nat.le_succ _).trans (congrArg Position.iteration hpos).ge

/-- From the moment of a solve at which an iteration has been prepared, only so many of its steps
are rejected. -/
theorem rejections_le (hc : c.fault? n = none) (hε : 0 < ε) (hτ : 0 < τ) (hl : linearize.Recounts)
    (ht : linearize.Tapers h) (hf : linearize.Factors h jac) {k : Nat} :
    let nm := Numerics.exact ε τ z
    let course := (method nm c budget h p linearize).course (accepts nm h) nm c.toSettings p x s
    (course k).stage = .prepared → 0 < (course k).state.length →
    ∀ d, (course (k + d)).state.iteration = (course k).state.iteration →
      (Nat.count (fun i => rejects nm h p (course (k + i)) = true) d : ℤ) ≤
        rejectionBound ε (course k).state.radius (course k).state.length := by
  intro nm course hprepared hlength d hsame
  have hsound : ∀ k, SoundAt h (course k) :=
    Method.course_induction (soundAt_opening hc x s) (soundAt_next hc hτ hl ht hf)
  -- unless the solve has ended, the radius has halved as often as a step was rejected
  suffices hinv : (Nat.count (fun i => rejects nm h p (course (k + i)) = true) d : ℤ) ≤
        rejectionBound ε (course k).state.radius (course k).state.length ∧
      ((∀ reason, (course (k + d)).stage ≠ .ended reason) → Linearized (course (k + d)) ∧
        (course (k + d)).state.Narrowed ε (course k).state
          (Nat.count (fun i => rejects nm h p (course (k + i)) = true) d)) from hinv.1
  induction d with
  | zero =>
    rw [Nat.count_zero]
    refine ⟨zero_le_one.trans (one_le_rejectionBound _ _ _), fun _ => ⟨?_, .refl ε _⟩⟩
    rw [Linearized, Nat.add_zero, hprepared]
    trivial
  | succ d ih =>
    have hmono : Monotone fun k => (course k).state.iteration := monotone_iteration nm hl
    have hbefore : (course (k + d)).state.iteration = (course k).state.iteration :=
      le_antisymm ((hmono (Nat.le_succ (k + d))).trans_eq hsame) (hmono (Nat.le_add_right k d))
    obtain ⟨hle, hgo⟩ := ih hbefore
    rw [Nat.count_succ, ← Nat.add_assoc]
    by_cases hended : ∃ reason, (course (k + d)).stage = .ended reason
    · obtain ⟨reason, hreason⟩ := hended
      have hrest : course (k + d + 1) = course (k + d) :=
        Method.course_eq_of_stage (Nat.le_succ (k + d)) hreason
      have hnot : rejects nm h p (course (k + d)) = false := by
        simp only [rejects, hreason]
      rw [hrest, hnot, if_neg Bool.false_ne_true]
      exact ⟨hle, fun hgoes => absurd hreason (hgoes reason)⟩
    · have hgoes : ∀ reason, (course (k + d)).stage ≠ .ended reason :=
        fun reason hreason => hended ⟨reason, hreason⟩
      obtain ⟨hlin, hn⟩ := hgo hgoes
      refine ⟨?_, ?_⟩
      · have hone := hn.add_one_le hε hlength
        split
        · exact_mod_cast hone
        · exact hle
      · intro hgoes'
        have hsucc : course (k + d + 1) =
            (method nm c budget h p linearize).next (accepts nm h) p (course (k + d)) :=
          Method.course_succ (k + d)
        rw [hsucc] at hgoes' ⊢
        refine narrowed_next hn (hsound (k + d)) hlin ?_ hgoes'
        rw [← hsucc, hbefore]
        exact hsame

end Course

/-! ### Preparations -/

/-- Adapting to a Jacobian sets the radius and the length only by the calibration. -/
theorem radius_adapt (nm : Numerics ℝ) (c : Config ℝ) (h : n ≤ r) (st : State ℝ m r n)
    (norms : Vec ℝ n) :
    (st.adapt nm c h norms).2.radius = (st.toIterate.calibrate nm c.toSettings norms).radius ∧
      (st.adapt nm c h norms).2.length =
        (st.toIterate.calibrate nm c.toSettings norms).length := by
  rw [State.adapt]
  split <;> exact ⟨rfl, rfl⟩

/-- After the first iteration a preparation leaves the trust region and the length alone. -/
theorem radius_prepare {nm : Numerics ℝ} {c : Config ℝ} {h : n ≤ r} {p : Problem σ ℝ m n}
    {linearize : Linearize σ ℝ m r n} (hl : linearize.Recounts) {st : State ℝ m r n}
    (hlater : st.iteration ≠ 1) (s : σ) :
    (prepare nm c h p linearize st s).2.1.radius = st.radius ∧
      (prepare nm c h p linearize st s).2.1.length = st.length := by
  rw [prepare]
  split
  · rcases st.toIterate.reportIfDue c.toSettings p s with ⟨e | _, s'⟩
    · exact ⟨rfl, rfl⟩
    · have hrec := (hl st s').eq
      simp only
      rcases hlin : linearize st s' with ⟨e | norms, st', s''⟩
      all_goals
        rw [hlin] at hrec
        simp only at hrec
        have hradius : st'.radius = st.radius := by rw [hrec]
        have hlength : st'.length = st.length := by rw [hrec]
      · exact ⟨hradius, hlength⟩
      · -- only a first iteration calibrates
        have hiteration : st'.iteration ≠ 1 := by
          rw [hrec]
          exact hlater
        have hcalibrate : st'.toIterate.calibrate nm c.toSettings norms = st'.toIterate := by
          rw [Iterate.calibrate, if_neg hiteration]
        obtain ⟨hradius', hlength'⟩ := radius_adapt nm c h st' norms
        rw [hradius', hlength', hcalibrate]
        exact ⟨hradius, hlength⟩
  · exact ⟨rfl, rfl⟩

/-! ### Minimizations -/

/-- A minimization limits the steps that it rejects. A rejected step is poor, and a poor step
shrinks the trust region. So from the moment at which an iteration has been prepared with a length
that is not zero, it rejects no more steps than the bound permits; and whatever the residuals at the
proposed points and the budget were, the iteration would be left before. At that moment the radius
and the length are those with which the iteration has begun, unless it is the first. -/
structure LimitsRejections (nm : Numerics ℝ) (c : Config ℝ)
    (course : Nat → Moment σ ℝ n (State ℝ m r n)) (h : n ≤ r) (p : Problem σ ℝ m n) : Prop where
  radius_propose (k : Nat) : (course k).stage = .prepared →
    (course (k + 1)).state.radius ≤ (course k).state.radius
  poor (k : Nat) (t : Proposal ℝ n) (v : Vec ℝ m) (s : σ) : (course k).stage = .proposed t →
    p.evaluate t.point (course k).world = (.ok v, s) →
    ((course k).state.gain nm h t (nm.vecNorm v)).ratio ≤ 0.25 →
    (course k).state.Shrinks (course (k + 1)).state
  rejected (k : Nat) (t : Proposal ℝ n) (v : Vec ℝ m) (s : σ) : (course k).stage = .proposed t →
    p.evaluate t.point (course k).world = (.ok v, s) →
    accepts nm h (course k).state t v = false →
    ((course k).state.gain nm h t (nm.vecNorm v)).ratio ≤ 0.25
  radius_begin (k : Nat) : (course k).stage = .ready → (course k).state.iteration ≠ 1 →
    (course (k + 1)).state.radius = (course k).state.radius ∧
      (course (k + 1)).state.length = (course k).state.length
  bounded (k : Nat) : 0 < nm.epsilon → (course k).stage = .prepared →
    0 < (course k).state.length →
    ∀ d, (course (k + d)).state.iteration = (course k).state.iteration →
      (Nat.count (fun i => rejects nm h p (course (k + i)) = true) d : ℤ) ≤
        rejectionBound nm.epsilon (course k).state.radius (course k).state.length
  left (k : Nat) (budget : Nat) (states : Nat → State ℝ m r n) (v : Nat → Vec ℝ m) :
    0 < nm.epsilon → (course k).stage = .prepared → 0 < (course k).state.length →
    states 0 = (course k).state →
    (∀ i, states (i + 1) = ((states i).trial nm c budget h (v i)).2) →
    ∃ i : Nat,
      (i : ℤ) < rejectionBound nm.epsilon (course k).state.radius (course k).state.length ∧
        (states i).Leaves nm c budget h (v i)

section Run

variable {c : Config ℝ} {patience : Nat} {p : Problem σ ℝ m n} {rows : n ≤ m → n ≤ r}
  {linearize : n ≤ m → Linearize σ ℝ m r n}

variable (rows) in
/-- All minimizations limit the steps that they reject. -/
theorem limitsRejections_run (hτ : 0 < τ) (c : Config ℝ) (p : Problem σ ℝ m n)
    (hl : ∀ h, (linearize h).Recounts) (ht : ∀ h, (linearize h).Tapers (rows h))
    {jac : Jacobian σ ℝ m r n} (h : n ≤ m) (hf : (linearize h).Factors (rows h) jac) (x : Vec ℝ n)
    (s : σ) :
    LimitsRejections (Numerics.exact ε τ z) c
      (course (Numerics.exact ε τ z) c patience p rows linearize x s) (rows h) p := by
  set nm := Numerics.exact ε τ z
  rcases hc : c.fault? n with _ | e
  · rw [course_eq h hc]
    set me := method nm c (c.budget patience n) (rows h) p (linearize h)
    set course := me.course (accepts nm (rows h)) nm c.toSettings p x s
    have hsucc (k : Nat) : course (k + 1) = me.next (accepts nm (rows h)) p (course k) :=
      Method.course_succ k
    have hsound : ∀ k, SoundAt (rows h) (course k) :=
      Method.course_induction (soundAt_opening hc x s) (soundAt_next hc hτ (hl h) (ht h) hf)
    have hprepared (k : Nat) (hstage : (course k).stage = .prepared) :
        (course k).state.Sound (rows h) := by
      have hk := hsound k
      unfold SoundAt at hk
      rwa [hstage] at hk
    have hproposed (k : Nat) (t : Proposal ℝ n) (hstage : (course k).stage = .proposed t) :
        (course k).state.Sound (rows h) ∧ 0 < t.length := by
      have hk := hsound k
      unfold SoundAt at hk
      rwa [hstage] at hk
    constructor
    · intro k hstage
      rw [hsucc, Method.next_of_prepared hstage]
      exact radius_propose_le nm (rows h) _
    · intro k t v s' hstage heval hratio
      obtain ⟨hst, hlength⟩ := hproposed k t hstage
      rw [hsucc, next_of_proposed hstage heval]
      exact shrinks_after hst.radius_pos hlength hratio
    · intro k t v s' hstage heval hrej
      exact ratio_le_of_rejected hrej
    · intro k hstage hlater
      rw [hsucc, Method.next_of_ready hstage]
      exact radius_prepare (hl h) hlater _
    · intro k hε hstage hlength
      exact rejections_le hc hε hτ (hl h) (ht h) hf hstage hlength
    · intro k budget states v hε hstage hlength hfirst hnext
      rw [← hfirst] at hlength ⊢
      exact exists_trial_leaves hε hτ (hfirst ▸ hprepared k hstage) hlength hnext
  · -- a solve whose input is rejected makes no step
    simp only [course, dif_pos h, hc]
    constructor
    · exact fun k hstage => by cases hstage
    · exact fun k t v s' hstage => by cases hstage
    · exact fun k t v s' hstage => by cases hstage
    · exact fun k hstage => by cases hstage
    · exact fun k _ hstage => by cases hstage
    · exact fun k budget states v _ hstage => by cases hstage

end Run

end LeastSquares

end NonlinearSolve

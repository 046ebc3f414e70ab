import Mathlib.Analysis.SpecialFunctions.Sqrt
import Mathlib.Data.List.GetD
import NonlinearSolve.LeastSquares.Trial
import NonlinearSolve.Proofs.Exact.Arithmetic

/-! # Positive scaling factors

In exact arithmetic, settings without fault keep the scaling factors positive and the radius of the
trust region from becoming negative (`Iterate.Proper`). Every operation on iterates keeps it so. -/

namespace NonlinearSolve

open Scalar

variable {σ : Type} {m r n : Nat}

/-- The scaling factors are positive, and the radius is not negative. -/
structure Iterate.Proper (it : Iterate ℝ m n) : Prop where
  scale_pos (j : Fin n) : 0 < it.scale j
  radius_nonneg : 0 ≤ it.radius

/-! ### Settings -/

/-- Settings without fault have a positive step bound and a scaling without fault. -/
theorem Settings.of_fault? {c : Settings ℝ} (hc : c.fault? n = none) :
    0 < c.stepBound ∧ c.scaling.fault? n = none := by
  simp only [fault?, Option.orElse_eq_orElse, Option.orElse_eq_or, Option.or_eq_none_iff] at hc
  obtain ⟨-, hbound, hscaling⟩ := hc
  refine ⟨?_, hscaling⟩
  by_contra hneg
  rw [if_neg hneg] at hbound
  cases hbound

/-- A scaling without fault starts with positive factors. -/
theorem Scaling.initial_pos {s : Scaling ℝ} (hs : s.fault? n = none) (j : Fin n) :
    0 < s.initial n j := by
  -- only given factors can be wrong, and those were checked
  cases s with
  | jacobian => exact (Vec.const_apply (1 : ℝ) j).symm ▸ zero_lt_one
  | unit => exact (Vec.const_apply (1 : ℝ) j).symm ▸ zero_lt_one
  | fixed factors =>
    rw [fault?] at hs
    by_cases hlen : factors.length = n
    · rw [if_pos hlen, Option.map_eq_none_iff, List.findIdx?_eq_none_iff] at hs
      have hj : j.val < factors.length := hlen.symm ▸ j.isLt
      have hpos := hs factors[j.val] (List.getElem_mem hj)
      rw [initial, if_pos hlen, Vec.ofList, Vec.of_apply, List.getD_eq_getElem _ _ hj]
      rw [Bool.not_eq_eq_eq_not, Bool.not_false, decide_eq_true_iff] at hpos
      exact hpos
    · rw [if_neg hlen] at hs
      cases hs

namespace Iterate.Proper

variable {it : Iterate ℝ m n} {c : Settings ℝ}

/-- The first iterate is proper if the settings have no fault. -/
theorem start (hc : c.fault? n = none) (x : Vec ℝ n) : (Iterate.start (m := m) c x).Proper where
  scale_pos := Scaling.initial_pos (Settings.of_fault? hc).2
  radius_nonneg := le_rfl

/-! ### Operations on iterates -/

variable {ε τ : ℝ} {z : Bool}

/-- A scaled norm is not negative. -/
theorem scaledNorm_nonneg (d v : Vec ℝ n) : 0 ≤ (Numerics.exact ε τ z).scaledNorm d v :=
  Numerics.vecNorm_exact_nonneg ε τ z _

/-- Evaluating the residuals keeps an iterate proper. -/
theorem evaluate (h : it.Proper) (p : Problem σ ℝ m n) (s : σ) :
    (it.evaluate (Numerics.exact ε τ z) p s).2.1.Proper := by
  rw [Iterate.evaluate]
  simp only
  rcases p.evaluate it.x s with ⟨e | f, s'⟩ <;> exact ⟨h.scale_pos, h.radius_nonneg⟩

/-- Calibrating the scaling to norms of columns keeps an iterate proper. -/
theorem calibrate (h : it.Proper) (hbound : 0 < c.stepBound) {norms : Vec ℝ n}
    (hnorms : ∀ j, 0 ≤ norms j) : (it.calibrate (Numerics.exact ε τ z) c norms).Proper := by
  rw [Iterate.calibrate]
  split
  · constructor
    · intro j
      change 0 < c.scaling.first it.scale norms j
      rw [Scaling.first]
      split
      · -- a column of zeros is scaled by one
        rw [Vec.map_apply]
        by_cases hzero : norms j = 0
        · rw [if_pos ((Exact.beq_iff _ _).2 hzero)]
          exact zero_lt_one
        · rw [if_neg (mt (Exact.beq_iff _ _).1 hzero)]
          exact lt_of_le_of_ne (hnorms j) (Ne.symm hzero)
      · exact h.scale_pos j
    · simp only
      split
      · exact hbound.le
      · exact mul_nonneg hbound.le (scaledNorm_nonneg _ _)
  · exact h

/-- A calibration makes the radius positive, and leaves a positive one alone. -/
theorem radius_pos_calibrate (hbound : 0 < c.stepBound) (hradius : it.iteration = 1 ∨ 0 < it.radius)
    (norms : Vec ℝ n) : 0 < (it.calibrate (Numerics.exact ε τ z) c norms).radius := by
  unfold Iterate.calibrate
  split
  · simp only
    split
    · exact hbound
    · next hne =>
      have hnonneg := mul_nonneg hbound.le (scaledNorm_nonneg (ε := ε) (τ := τ) (z := z)
        (c.scaling.first it.scale norms) it.x)
      exact lt_of_le_of_ne hnonneg (Ne.symm (mt (Exact.beq_iff _ _).2 hne))
  · next hlater => exact hradius.resolve_left hlater

/-- Enlarging the scale factors keeps an iterate proper. -/
theorem rescale (h : it.Proper) (norms : Vec ℝ n) : (it.rescale c norms).Proper := by
  refine ⟨?_, h.radius_nonneg⟩
  intro j
  change 0 < c.scaling.grow it.scale norms j
  rw [Scaling.grow]
  split
  · rw [Vec.of_apply, Exact.maxNum_eq]
    exact lt_max_of_lt_left (h.scale_pos j)
  · exact h.scale_pos j

/-- Proposing a step keeps an iterate proper, also if it shortens the first radius. -/
theorem propose (h : it.Proper) (step : Vec ℝ n) :
    (it.propose (Numerics.exact ε τ z) step).2.Proper := by
  refine ⟨h.scale_pos, ?_⟩
  rw [Iterate.propose]
  simp only
  split
  · rw [Exact.minNum_eq]
    exact le_min h.radius_nonneg (scaledNorm_nonneg _ _)
  · exact h.radius_nonneg

/-- The factor by which the trust region shrinks is not below a tenth. -/
theorem tenth_le_shrink (g : LeastSquares.Gain ℝ) (norm norm1 : ℝ) : 0.1 ≤ g.shrink norm norm1 := by
  rw [LeastSquares.Gain.shrink]
  set t := if 0 ≤ g.actual then 0.5 else 0.5 * g.slope / (g.slope + 0.5 * g.actual) with ht
  by_cases hsmall : norm ≤ 0.1 * norm1 ∨ t < 0.1
  · rw [if_pos hsmall]
  · rw [if_neg hsmall]
    exact not_lt.1 (not_or.1 hsmall).2

/-- The trust region shrinks by a positive factor. -/
theorem shrink_pos (g : LeastSquares.Gain ℝ) (norm norm1 : ℝ) : 0 < g.shrink norm norm1 :=
  lt_of_lt_of_le (by norm_num) (tenth_le_shrink g norm norm1)

/-- Resizing the trust region keeps a state proper. -/
theorem resize {st : LeastSquares.State ℝ m r n} (h : st.Proper) (g : LeastSquares.Gain ℝ)
    {length : ℝ} (hlength : 0 ≤ length) (norm1 : ℝ) : (st.resize g length norm1).Proper := by
  rw [LeastSquares.State.resize]
  split
  · refine ⟨h.scale_pos, mul_nonneg (shrink_pos g _ _).le ?_⟩
    rw [Exact.minNum_eq]
    exact le_min h.radius_nonneg (div_nonneg hlength (by norm_num))
  · split
    · exact ⟨h.scale_pos, div_nonneg hlength (by norm_num)⟩
    · exact h

end Iterate.Proper

/-! ### The first calibration -/

/-- Where all unknowns are one and the columns of the Jacobian have the norm `a`, the scaled iterate
has the length `a √n`, and the first radius is the step bound times that. -/
theorem Iterate.calibrate_ones {ε τ : ℝ} {z : Bool} {it : Iterate ℝ m n} {c : Settings ℝ} {a : ℝ}
    (hscaling : c.scaling = .jacobian) (hbound : 0 < c.stepBound) (hfirst : it.iteration = 1)
    (hx : it.x = Vec.const n 1) (hn : 0 < n) (ha : 0 < a) :
    it.calibrate (Numerics.exact ε τ z) c (Vec.const n a) =
      { it with
        scale := Vec.const n a, length := a * √n, radius := c.stepBound * (a * √n) } := by
  have hscale : c.scaling.first it.scale (Vec.const n a) = Vec.const n a := by
    refine Vec.ext fun j => ?_
    rw [hscaling, Scaling.first, Scaling.isAdaptive, if_pos rfl, Vec.map_apply, Vec.const_apply,
      if_neg (mt (Exact.beq_iff _ _).1 ha.ne')]
  have hlength : (Numerics.exact ε τ z).scaledNorm (Vec.const n a) it.x = a * √n := by
    rw [hx, Numerics.scaledNorm_const, mul_one, abs_of_pos ha]
  have hradius : c.stepBound * (a * √n) ≠ 0 :=
    (mul_pos hbound (mul_pos ha (Real.sqrt_pos.2 (Nat.cast_pos.2 hn)))).ne'
  rw [calibrate, if_pos hfirst]
  simp only [hscale, hlength, if_neg (mt (Exact.beq_iff _ _).1 hradius)]

end NonlinearSolve

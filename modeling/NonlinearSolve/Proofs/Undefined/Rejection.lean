import NonlinearSolve.Proofs.Equations.Frame
import NonlinearSolve.Proofs.LeastSquares.Frame
import NonlinearSolve.Proofs.Undefined.Numbers

/-! # Undefined residuals at a trial point

No method tests whether the residuals at a trial point are defined. If one of them is not, then
their norm is undefined, and every comparison with it fails. So the residuals count as if they had
grown: the actual reduction is minus one. Whatever reduction is predicted, the ratio of the two is
then negative, zero or undefined, and the step is rejected (`Method.RejectsUndefined`). -/

namespace NonlinearSolve

open Scalar

variable {σ α τ : Type} [Scalar α] {m r n : Nat}

/-- Steps to points with an undefined residual are rejected. Such a step changes nothing of the
iterate but the radius and the count of evaluations, whether the solve ends with it or not. -/
structure Method.RejectsUndefined (me : Method σ α m n τ) (accepts : Acceptance τ α m n) :
    Prop where
  rejected (st : τ) (t : Proposal α n) (f : Vec α m) : (∃ i, IsUndefined (f i)) →
    accepts st t f = false
  iterate (p : Problem σ α m n) (st : τ) (s s' : σ) (f : Vec α m) :
    p.evaluate (me.propose st).1.point s = (.ok f, s') → (∃ i, IsUndefined (f i)) →
      ∃ radius, me.iterate (me.attempt p st s).2.1 =
        { me.iterate st with radius, evaluations := (me.iterate st).evaluations + 1 }

/-- The norm of residuals with an undefined component is undefined. -/
theorem Vec.isUndefined_vecNorm [PropagatesUndefined α] {nm : Numerics α} {b : Bands α}
    (hnm : nm.norm = b.norm) {f : Vec α m} (h : ∃ i, IsUndefined (f i)) :
    IsUndefined (nm.vecNorm f) := by
  obtain ⟨i, hi⟩ := h
  rw [Numerics.vecNorm, hnm]
  have hlt : i.val < f.toList.length := by
    rw [f.length_toList]
    exact i.isLt
  refine Bands.isUndefined_norm b ⟨f i, ?_, hi⟩
  rw [← f.getElem_toList i hlt]
  exact List.getElem_mem hlt

section Signs

variable [KeepsSigns α]

/-- If the residuals have grown, no predicted reduction makes the ratio acceptable. -/
theorem not_acceptable_of_growth {predicted : α} (h : IsUndefined predicted ∨ 0 < predicted) :
    ¬ (0.0001 : α) ≤ -1 / predicted := by
  obtain hundef | hpos := h
  · exact PropagatesUndefined.not_le _ _ (.inr (PropagatesUndefined.div _ _ (.inr hundef)))
  · obtain hundef | hnonpos := KeepsSigns.div_nonpos (-1) predicted KeepsSigns.neg_one_nonpos hpos
    · exact PropagatesUndefined.not_le _ _ (.inr hundef)
    · exact KeepsSigns.not_le_of_nonpos _ _ hnonpos KeepsSigns.threshold_pos

/-- No step is accepted that gains nothing. -/
theorem not_acceptable_zero : ¬ (0.0001 : α) ≤ 0 :=
  KeepsSigns.not_le_of_nonpos _ _ KeepsSigns.zero_nonpos KeepsSigns.threshold_pos

end Signs

/-! ### Least squares -/

namespace LeastSquares

section Gains

variable [KeepsSigns α] (nm : Numerics α) (h : n ≤ r) (st : State α m r n) (t : Proposal α n)

/-- The reduction that the linear model predicts is a sum of squares. -/
theorem predicted_nonneg (norm1 : α) :
    IsUndefined (st.gain nm h t norm1).predicted ∨ 0 ≤ (st.gain nm h t norm1).predicted := by
  set linear := nm.vecNorm (st.linearChange h t.step) / st.residualNorm
  set damped := sqrt st.damping * t.length / st.residualNorm
  change IsUndefined (linear * linear + damped * damped / 0.5) ∨
    0 ≤ linear * linear + damped * damped / 0.5
  obtain hundef | hlinear := KeepsSigns.square_nonneg linear
  · exact .inl (PropagatesUndefined.add _ _ (.inl hundef))
  obtain hundef | hdamped := KeepsSigns.square_nonneg damped
  · exact .inl (PropagatesUndefined.add _ _ (.inr (PropagatesUndefined.div _ _ (.inl hundef))))
  obtain hundef | hhalf := KeepsSigns.div_nonneg _ 0.5 hdamped KeepsSigns.half_pos
  · exact .inl (PropagatesUndefined.add _ _ (.inr hundef))
  · exact KeepsSigns.add_nonneg _ _ hlinear hhalf

/-- An undefined norm makes no gain acceptable. -/
theorem gain_of_undefined {norm1 : α} (hundef : IsUndefined norm1) :
    (st.gain nm h t norm1).acceptable = false := by
  -- the test for a moderate norm fails, as every comparison with it does
  have hactual : (st.gain nm h t norm1).actual = -1 :=
    if_neg (PropagatesUndefined.not_lt _ _ (.inl (PropagatesUndefined.mul _ _ (.inr hundef))))
  have hratio : (st.gain nm h t norm1).ratio =
      if (st.gain nm h t norm1).predicted == 0 then 0
      else (st.gain nm h t norm1).actual / (st.gain nm h t norm1).predicted := rfl
  rw [Gain.acceptable, decide_eq_false_iff_not, hratio, hactual]
  split
  · exact not_acceptable_zero
  · next hne =>
    -- a sum of squares that is not zero is positive, unless it is undefined
    refine not_acceptable_of_growth ?_
    obtain hnone | hnonneg := predicted_nonneg nm h st t norm1
    · exact .inl hnone
    · exact .inr (KeepsSigns.pos_of_nonneg _ hnonneg (Bool.eq_false_iff.2 hne))

end Gains

/-- The Levenberg-Marquardt method rejects points with undefined residuals. -/
theorem rejectsUndefined_method [KeepsSigns α] {nm : Numerics α} {b : Bands α}
    (hnm : nm.norm = b.norm) (c : Config α) (budget : Nat) (h : n ≤ r) (p : Problem σ α m n)
    (linearize : Linearize σ α m r n) :
    (method nm c budget h p linearize).RejectsUndefined (accepts nm h) where
  rejected st t f hf := gain_of_undefined nm h st t (Vec.isUndefined_vecNorm hnm hf)
  iterate q st s s' f heval hf := by
    have hrej : accepts nm h (st.propose nm h).2 (st.propose nm h).1 f = false :=
      gain_of_undefined nm h _ _ (Vec.isUndefined_vecNorm hnm hf)
    obtain ⟨radius, hafter⟩ := iterate_after_of_rejected hrej
    refine ⟨radius, ?_⟩
    simp only [Method.attempt, heval]
    change ((st.propose nm h).2.judge nm c budget h (st.propose nm h).1 f).2.toIterate = _
    rw [judge_state, hafter]
    rfl

end LeastSquares

/-! ### Systems of equations -/

namespace Equations

/-- An undefined norm makes no gain acceptable. -/
theorem gain_of_undefined [KeepsSigns α] (nm : Numerics α) (st : State α n) (model : Vec α n)
    {norm1 : α} (hundef : IsUndefined norm1) :
    (st.gain nm model norm1).acceptable = false := by
  -- the test for a smaller norm fails
  have hactual : (st.gain nm model norm1).actual = -1 :=
    if_neg (PropagatesUndefined.not_lt _ _ (.inl hundef))
  have hratio : (st.gain nm model norm1).ratio =
      if 0 < (st.gain nm model norm1).predicted then
        (st.gain nm model norm1).actual / (st.gain nm model norm1).predicted
      else 0 := rfl
  rw [Gain.acceptable, decide_eq_false_iff_not, hratio, hactual]
  split
  · next hpos => exact not_acceptable_of_growth (.inr hpos)
  · exact not_acceptable_zero

/-- A rejected step changes at most the radius of the iterate. -/
theorem iterate_after_of_rejected {nm : Numerics α} {st : State α n} {t : Proposal α n}
    {f : Vec α n} (hrej : accepts nm st t f = false) :
    ∃ radius, (st.after nm t f).toIterate = { st.toIterate with radius } := by
  have hresize : ∀ (g : Gain α) (length : α),
      ∃ radius, (st.resize g length).toIterate = { st.toIterate with radius } := by
    intro g length
    rw [State.resize]
    split <;> exact ⟨_, rfl⟩
  rw [State.after, hrej]
  exact hresize _ _

/-- The hybrid method rejects points with undefined residuals. -/
theorem rejectsUndefined_method [KeepsSigns α] {nm : Numerics α} {b : Bands α}
    (hnm : nm.norm = b.norm) (c : Config α) (budget : Nat) (p : Problem σ α n n)
    (linearize : Linearize σ α n) :
    (method nm c budget p linearize).RejectsUndefined (accepts nm) where
  rejected st t f hf := gain_of_undefined nm st _ (Vec.isUndefined_vecNorm hnm hf)
  iterate q st s s' f heval hf := by
    have hrej : accepts nm (st.propose nm).2 (st.propose nm).1 f = false :=
      gain_of_undefined nm _ _ (Vec.isUndefined_vecNorm hnm hf)
    obtain ⟨radius, hafter⟩ := iterate_after_of_rejected hrej
    refine ⟨radius, ?_⟩
    simp only [Method.attempt, heval]
    change ((st.propose nm).2.judge nm c budget (st.propose nm).1 f).2.toIterate = _
    rw [toIterate_judge, hafter]
    rfl

end Equations

end NonlinearSolve

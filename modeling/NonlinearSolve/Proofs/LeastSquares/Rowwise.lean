import NonlinearSolve.Proofs.LeastSquares.Linearizations
import NonlinearSolve.Proofs.LeastSquares.Lockstep

/-! # Minimizing row by row

A minimization with the Jacobian and one row by row linearize by the same normal equations
(`rowwise_inStep`), so they go through the same moments, the factorizations in their states apart,
and end in the same way. -/

namespace NonlinearSolve

namespace LeastSquares

open Matrix Scalar

variable {σ : Type} {m r r' n : Nat} {ε τ : ℝ} {z : Bool}

/-! ### The same units -/

/-- The moment with another factorization in its state, everything else being the same. -/
def refactored (mo : Moment σ ℝ n (State ℝ m r n)) (factor : Mat ℝ r' n) (order : Vec (Fin n) n)
    (rhs : Vec ℝ n) : Moment σ ℝ n (State ℝ m r' n) where
  stage := mo.stage
  state := mo.state.refactor factor order rhs
  world := mo.world
  base := mo.base

/-- The unit one is positive. -/
theorem units_one_pos (i : Fin n) : 0 < Vec.const n (1 : ℝ) i := by
  rw [Vec.const_apply]
  exact one_pos

/-- Every problem is itself in the same units. -/
theorem problem_inUnits_one (p : Problem σ ℝ m n) : p.InUnits (Vec.const n 1) id p where
  evaluate x s := by
    rw [Vec.one_diagMul]
    rfl
  report k x f s := by
    rw [Vec.one_diagMul]
    rfl

/-- A summary is the same in units of one. -/
theorem summary_inUnits_one (sm : Summary ℝ m n) :
    sm.inUnits (Vec.const n 1) sm.scale = sm := by
  rw [Summary.inUnits, Vec.one_diagMul]

/-- In units of one a state only changes its factorization. -/
theorem state_inUnits_one (st : State ℝ m r n) (factor : Mat ℝ r' n) (order : Vec (Fin n) n)
    (rhs : Vec ℝ n) :
    st.inUnits (Vec.const n 1) ⟨st.scale, factor, order, rhs⟩ = st.refactor factor order rhs := by
  rw [State.inUnits, Iterate.inUnits, Vec.one_diagMul]
  rfl

/-- A stage is the same in units of one. -/
theorem stage_inUnits_one (stage : Stage ℝ n) : stage.inUnits (Vec.const n 1) = stage := by
  cases stage with
  | proposed prop =>
    rw [Stage.inUnits, Proposal.inUnits, Vec.one_diagMul, Vec.one_diagMul]
  | _ => rfl

/-- In units of one the scaling is the same. -/
theorem Model.Scales.eq {M : Model r' n} {st : State ℝ m r n} (hM : M.Scales (Vec.const n 1) st) :
    M.scale = st.scale := by
  obtain h | ⟨h, -⟩ := hM
  · rw [h, Vec.perUnit_one]
  · exact h

/-- In the same units only the factorization can be another one. -/
theorem converted_one {mo : Moment σ ℝ n (State ℝ m r n)} {M : Model r' n}
    (hM : M.Scales (Vec.const n 1) mo.state) :
    converted mo (Vec.const n 1) id M = refactored mo M.factor M.order M.rhs := by
  obtain ⟨scale, factor, order, rhs⟩ := M
  obtain rfl : scale = mo.state.scale := hM.eq
  rw [converted, stage_inUnits_one, state_inUnits_one, Vec.one_diagMul]
  rfl

/-- The same normal equations, in the same units. -/
theorem SameEquations.factors {h : n ≤ r} {h' : n ≤ r'} {st : State ℝ m r n} {M : Model r' n}
    (hsame : SameEquations h h' st (st.refactor M.factor M.order M.rhs)) :
    M.Factors (Vec.const n 1) h h' st := by
  obtain ⟨eqs, hleft, hright, hbasis⟩ := hsame
  have hone : (Vec.const n (1 : ℝ)).get = fun _ => 1 := funext fun i => Vec.const_apply 1 i
  refine ⟨eqs, hleft, ?_, hbasis⟩
  rw [hone, NormalEquations.inUnits_one]
  exact hright

/-! ### The two linearizations -/

section Linearizations

variable {p : JacobianProblem σ ℝ m n} {q : RowProblem σ ℝ m n}
  {jac : Vec ℝ n → Except Abort (Mat ℝ m n)}

/-- Linearizing row by row yields the same normal equations. -/
theorem rowwise_inStep (hjac : SameJacobian p q jac) (hn : 0 < n) (hm : n ≤ m) (c : Config ℝ)
    (st : State ℝ m m n) (s : σ) :
    Linearize.InStep (Vec.const n 1) id hm le_rfl c (analytic (Numerics.exact ε τ z) hm p)
      (rowwise (Numerics.exact ε τ z) q) st s := by
  rintro ⟨scale, factor, order, rhs⟩ hM
  obtain rfl : scale = st.scale := hM.eq
  rw [state_inUnits_one]
  rcases hx : jac st.x with e | a
  · obtain ⟨hleft, hright⟩ := linearize_of_error ε τ z hjac hm (lt_of_lt_of_le hn hm) hx factor
      order rhs s
    refine ⟨⟨st.scale, Mat.zero n n, order, Vec.zero n⟩, rfl, ?_, ?_⟩
    · simp only [hleft, hright, id, Except.map, state_inUnits_one]
    · intro norms hok
      rw [hleft] at hok
      cases hok
  · -- whatever the factorizations were, the new ones belong to the same normal equations
    have hleft := analytic_of_ok ε τ z hjac hm hx s
    obtain ⟨factor', order', rhs', hright, hsame⟩ := rowwise_of_ok ε τ z hjac hm hx factor order rhs
      s
    have hone := state_inUnits_one (st.factorize (Numerics.exact ε τ z) hm a).2 factor' order' rhs'
    refine ⟨⟨st.scale, factor', order', rhs'⟩, rfl, ?_, ?_⟩
    · simp only [hleft, hright, id, Except.map, Vec.perUnit_one, ← hone]
      rfl
    · intro norms hok
      rw [hleft] at hok ⊢
      cases hok
      exact ⟨columnNorms_nonneg ε τ z a, .inl rfl, SameEquations.factors hsame⟩

end Linearizations

end LeastSquares

end NonlinearSolve

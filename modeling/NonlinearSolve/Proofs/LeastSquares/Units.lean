import NonlinearSolve.Proofs.Linear.Covariances
import NonlinearSolve.Proofs.LeastSquares.LastJacobian
import NonlinearSolve.Proofs.LeastSquares.Lockstep

/-! # The units of the unknowns

A problem can be given in other units of its unknowns (`JacobianProblem.inUnits`): its callbacks
convert the points they are asked about, and the columns of the Jacobian are divided. With the
scaling by the Jacobian, and as long as the Jacobians have full column rank, the minimization in
other units is in step with the one in the old units (`analytic_inStep`). The calls that it makes
are the same, at the converted points (`Call.inUnits`). -/

namespace NonlinearSolve

open Matrix

variable {σ σ' : Type} {m n : Nat}

/-! ### Problems in other units -/

/-- The problem for unknowns whose values are `t i` times as large. -/
noncomputable def JacobianProblem.inUnits (p : JacobianProblem σ ℝ m n) (t : Vec ℝ n) :
    JacobianProblem σ ℝ m n where
  evaluate y := p.evaluate (y.perUnit t)
  report k y f := p.report k (y.perUnit t) f
  jacobian y s := ((p.jacobian (y.perUnit t) s).1.map (Mat.perUnit · t),
    (p.jacobian (y.perUnit t) s).2)

/-- The problem `q`, with its Jacobian, is `p` in the units `t`. The states of its callbacks are
given by `g`. -/
structure JacobianProblem.InUnits (t : Vec ℝ n) (g : σ → σ') (p : JacobianProblem σ ℝ m n)
    (q : JacobianProblem σ' ℝ m n) : Prop extends p.toProblem.InUnits t g q.toProblem where
  jacobian (x : Vec ℝ n) (s : σ) :
    q.jacobian (t.diagMul x) (g s) =
      ((p.jacobian x s).1.map (Mat.perUnit · t), g (p.jacobian x s).2)

/-- The call at the converted point. -/
noncomputable def Call.inUnits (call : Call ℝ m n) (t : Vec ℝ n) : Call ℝ m n :=
  match call with
  | .evaluate x => .evaluate (t.diagMul x)
  | .jacobian x => .jacobian (t.diagMul x)
  | .jacobianRow x i => .jacobianRow (t.diagMul x) i
  | .report k x f => .report k (t.diagMul x) f

/-- The calls at the converted points. -/
noncomputable def callsInUnits (t : Vec ℝ n) (calls : Array (Event ℝ m n)) : Array (Event ℝ m n) :=
  calls.map fun e => { e with call := e.call.inUnits t }

/-- No calls are no calls in other units. -/
@[simp] theorem callsInUnits_empty (t : Vec ℝ n) :
    callsInUnits t (#[] : Array (Event ℝ m n)) = #[] := Array.map_empty

/-- The points where the residuals are asked for in a list of calls. -/
def evaluatedPoints {α : Type} (calls : Array (Event α m n)) : List (Vec α n) :=
  calls.toList.filterMap fun e =>
    match e.call with
    | .evaluate x => some x
    | _ => none

/-- The points of the calls in other units are those points in other units. -/
theorem evaluatedPoints_callsInUnits (t : Vec ℝ n) (calls : Array (Event ℝ m n)) :
    evaluatedPoints (callsInUnits t calls) = (evaluatedPoints calls).map t.diagMul := by
  rw [evaluatedPoints, evaluatedPoints, callsInUnits, Array.toList_map, List.filterMap_map,
    List.map_filterMap]
  congr 1
  funext e
  rw [Function.comp_apply]
  cases e.call <;> rfl

section Problems

variable {t : Vec ℝ n} {p : JacobianProblem σ ℝ m n} {q : JacobianProblem σ' ℝ m n}

/-- A problem is in the other units what it says. -/
theorem JacobianProblem.inUnits_inUnits (ht : ∀ i, 0 < t i) (p : JacobianProblem σ ℝ m n) :
    JacobianProblem.InUnits t id p (p.inUnits t) := by
  have hpoint : ∀ x : Vec ℝ n, (t.diagMul x).perUnit t = x :=
    fun x => Vec.perUnit_diagMul x fun i => (ht i).ne'
  refine ⟨⟨?_, ?_⟩, ?_⟩
  · intro x s
    simp only [inUnits, hpoint, id]
  · intro k x f s
    simp only [inUnits, hpoint, id]
  · intro x s
    simp only [inUnits, hpoint, id]

/-- Recording a call and the call at the converted point, which ends in the same way. -/
theorem Callback.traced_inUnits {β γ : Type} {f : Callback σ β} {f' : Callback σ' γ} {g : σ → σ'}
    {convert : Except Abort β → Except Abort γ} {s : σ}
    (hf : f' (g s) = (convert (f s).1, g (f s).2))
    (habort : ∀ res, abort? (convert res) = abort? res) (call : Call ℝ m n)
    (calls : Array (Event ℝ m n)) :
    traced (call.inUnits t) f' (g s, callsInUnits t calls) =
      (convert (traced call f (s, calls)).1, g (traced call f (s, calls)).2.1,
        callsInUnits t (traced call f (s, calls)).2.2) := by
  simp only [traced, hf, habort, callsInUnits, Array.map_push]

/-- If a problem is another one in other units, then it is so with the calls recorded. -/
theorem JacobianProblem.InUnits.traced {g : σ → σ'} (h : JacobianProblem.InUnits t g p q) :
    JacobianProblem.InUnits t (fun s => (g s.1, callsInUnits t s.2)) p.traced q.traced := by
  refine ⟨⟨?_, ?_⟩, ?_⟩
  · rintro x ⟨s, calls⟩
    exact Callback.traced_inUnits (h.evaluate x s) (fun _ => rfl) (.evaluate x) calls
  · rintro k x f ⟨s, calls⟩
    exact Callback.traced_inUnits (h.report k x f s) (fun _ => rfl) (.report k x f) calls
  · rintro x ⟨s, calls⟩
    refine Callback.traced_inUnits (h.jacobian x s) ?_ (.jacobian x) calls
    rintro (e | a) <;> rfl

end Problems

namespace LeastSquares

variable {ε τ : ℝ} {z : Bool}

/-- The columns of a matrix of full column rank are not zero. -/
theorem columnNorms_ne_zero {a : Mat ℝ m n} (ha : a.toMatrix.rank = n) (j : Fin n) :
    columnNorms (Numerics.exact ε τ z) a j ≠ 0 := by
  intro hzero
  rw [columnNorms, Vec.of_apply, Numerics.vecNorm_exact_eq_zero] at hzero
  have hentry : ∀ i, a.toMatrix i j = 0 := by
    intro i
    rw [Mat.toMatrix_apply, ← Mat.col_apply, hzero, Vec.zero_apply]
  refine NormalEquations.det_ofProblem_ne_zero ha 0 (det_eq_zero_of_column_eq_zero j ?_)
  intro i
  change ∑ k, a.toMatrix k i * a.toMatrix k j = 0
  exact Finset.sum_eq_zero fun k _ => mul_eq_zero_of_right _ (hentry k)

/-- The norms of the columns change by the units. -/
theorem columnNorms_perUnit {t : Vec ℝ n} (ht : ∀ i, 0 < t i) (a : Mat ℝ m n) :
    columnNorms (Numerics.exact ε τ z) (a.perUnit t) =
      (columnNorms (Numerics.exact ε τ z) a).perUnit t := by
  ext j
  rw [Vec.perUnit_apply, columnNorms, columnNorms, Vec.of_apply, Vec.of_apply,
    Numerics.vecNorm_exact, Numerics.vecNorm_exact]
  simp only [Mat.col_apply, Mat.perUnit_apply, div_pow, ← Finset.sum_div]
  rw [Real.sqrt_div (Finset.sum_nonneg fun i _ => sq_nonneg _), Real.sqrt_sq (ht j).le]

/-- Dividing the columns does not change the rank. -/
theorem rank_perUnit {t : Vec ℝ n} (ht : ∀ i, 0 < t i) (a : Mat ℝ m n) :
    (a.perUnit t).toMatrix.rank = a.toMatrix.rank := by
  have hmul : (a.perUnit t).toMatrix = a.toMatrix * diagonal fun j => (t j)⁻¹ := by
    ext i j
    rw [mul_diagonal, Mat.toMatrix_apply, Mat.toMatrix_apply, Mat.perUnit_apply, div_eq_mul_inv]
  have hunit : IsUnit (diagonal fun j => (t j)⁻¹).det := by
    rw [det_diagonal, isUnit_iff_ne_zero]
    exact Finset.prod_ne_zero_iff.2 fun j _ => inv_ne_zero (ht j).ne'
  rw [hmul, rank_mul_eq_left_of_isUnit_det _ _ hunit]

/-- The factorization of a Jacobian of full column rank in other units fits to the one in the old
units. -/
theorem factors_perUnit {t : Vec ℝ n} (ht : ∀ i, 0 < t i) (h : n ≤ m) (st : State ℝ m m n)
    (M : Model m n) {a : Mat ℝ m n} (ha : a.toMatrix.rank = n) (scale : Vec ℝ n) :
    let st' := ((st.inUnits t M).factorize (Numerics.exact ε τ z) h (a.perUnit t)).2
    Model.Factors ⟨scale, st'.factor, st'.order, st'.rhs⟩ t h h
      (st.factorize (Numerics.exact ε τ z) h a).2 := by
  intro st'
  have hleft := factors_factorize ε τ z h st a
  have hright := factors_factorize ε τ z h (st.inUnits t M) (a.perUnit t)
  have ha' : (a.perUnit t).toMatrix.rank = n := (rank_perUnit ht a).trans ha
  -- both factorizations are regular, so both bases have all unknowns
  have hfirst := hleft.firstZero_eq (NormalEquations.det_ofProblem_ne_zero ha _)
  have hfirst' := hright.firstZero_eq (NormalEquations.det_ofProblem_ne_zero ha' _)
  refine ⟨NormalEquations.ofProblem a.toMatrix st.residuals.get, hleft, ?_, ?_⟩
  · rw [← NormalEquations.ofProblem_perUnit]
    exact hright
  · rw [hfirst, hfirst', basis_univ hleft.bijective, basis_univ hright.bijective]

/-- A Jacobian of full column rank and the one in other units are linearized in step, with the
scaling by the Jacobian. -/
theorem analytic_inStep {t : Vec ℝ n} (ht : ∀ i, 0 < t i) {g : σ → σ'}
    {p : JacobianProblem σ ℝ m n} {q : JacobianProblem σ' ℝ m n}
    (hpq : JacobianProblem.InUnits t g p q) {c : Config ℝ} (hc : c.scaling = .jacobian) (h : n ≤ m)
    {st : State ℝ m m n} {s : σ}
    (hrank : ∀ a, (p.jacobian st.x s).1 = .ok a → a.toMatrix.rank = n) :
    Linearize.InStep t g h h c (analytic (Numerics.exact ε τ z) h p)
      (analytic (Numerics.exact ε τ z) h q) st s := by
  intro M _
  have hjac' := hpq.jacobian st.x s
  rcases hjac : p.jacobian st.x s with ⟨e | a, s'⟩
  · rw [hjac] at hjac'
    have hcall : q.jacobian (st.inUnits t M).x (g s) = (.error e, g s') := hjac'
    rw [analytic_of_abort _ h hjac, analytic_of_abort _ h hcall]
    refine ⟨M, rfl, rfl, ?_⟩
    intro norms hok
    cases hok
  · rw [hjac] at hjac' hrank
    have ha := hrank a rfl
    have hcall : q.jacobian (st.inUnits t M).x (g s) = (.ok (a.perUnit t), g s') := hjac'
    rw [analytic_of_eq ε τ z h hjac, analytic_of_eq ε τ z h hcall]
    set st' := ((st.inUnits t M).factorize (Numerics.exact ε τ z) h (a.perUnit t)).2
    refine ⟨⟨M.scale, st'.factor, st'.order, st'.rhs⟩, rfl, ?_, ?_⟩
    · rw [columnNorms_perUnit ht]
      rfl
    · intro norms hok
      cases hok
      have hadaptive : c.scaling.isAdaptive = true := by
        rw [hc]
        rfl
      exact ⟨columnNorms_nonneg ε τ z a, .inr ⟨hadaptive, columnNorms_ne_zero ha⟩,
        factors_perUnit ht h st M ha M.scale⟩

end LeastSquares

end NonlinearSolve

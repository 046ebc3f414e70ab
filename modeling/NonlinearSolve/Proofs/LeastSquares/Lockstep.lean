import Mathlib.Analysis.SpecialFunctions.Sqrt
import NonlinearSolve.Proofs.LeastSquares.Accounts
import NonlinearSolve.Proofs.TrustRegion.Positivity
import NonlinearSolve.Proofs.TrustRegion.Subproblem

/-! # Solves in step

Nothing but the factorization itself depends on how a Jacobian is factored, and nothing but the
unknowns and their scaling factors depends on the units of the unknowns. So two solves of one
problem, with different factorizations and in different units, go through the same moments
(`InStep.next`, `inStep_course`) and report the same (`run_inStep`), as long as their linearizations
yield the same normal equations (`Linearize.InStep`). The units are given by a vector `t`: in the
second solve the value of the unknown `i` is `t i` times as large. -/

namespace NonlinearSolve

open Matrix Scalar

variable {σ σ' : Type} {m r r' n : Nat} {ε τ : ℝ} {z : Bool}

/-! ### The problem in other units -/

/-- The problem `q` is `p` in the units `t`. The states of its callbacks are given by `g`. -/
structure Problem.InUnits (t : Vec ℝ n) (g : σ → σ') (p : Problem σ ℝ m n) (q : Problem σ' ℝ m n) :
    Prop where
  evaluate (x : Vec ℝ n) (s : σ) :
    q.evaluate (t.diagMul x) (g s) = ((p.evaluate x s).1, g (p.evaluate x s).2)
  report (k : Nat) (x : Vec ℝ n) (f : Vec ℝ m) (s : σ) :
    q.report k (t.diagMul x) f (g s) = ((p.report k x f s).1, g (p.report k x f s).2)

/-- The iterate in other units. -/
noncomputable def Iterate.inUnits (it : Iterate ℝ m n) (t scale : Vec ℝ n) : Iterate ℝ m n :=
  { it with x := t.diagMul it.x, scale }

/-- The summary in other units. -/
noncomputable def Summary.inUnits (sm : Summary ℝ m n) (t scale : Vec ℝ n) : Summary ℝ m n :=
  { sm with x := t.diagMul sm.x, scale }

/-- The proposal in other units. -/
noncomputable def Proposal.inUnits (prop : Proposal ℝ n) (t : Vec ℝ n) : Proposal ℝ n :=
  { prop with step := t.diagMul prop.step, point := t.diagMul prop.point }

/-- The stage in other units. -/
noncomputable def Stage.inUnits (stage : Stage ℝ n) (t : Vec ℝ n) : Stage ℝ n :=
  match stage with
  | .proposed prop => .proposed (prop.inUnits t)
  | stage => stage

/-! ### Scaling factors -/

section Scaling

variable {t : Vec ℝ n} (ht : ∀ i, 0 < t i)

include ht

/-- A scaled norm is the same in all units, if the scaling is in the same units as the vector. -/
theorem Numerics.scaledNorm_inUnits (nm : Numerics ℝ) (d v : Vec ℝ n) :
    nm.scaledNorm (d.perUnit t) (t.diagMul v) = nm.scaledNorm d v := by
  rw [scaledNorm, scaledNorm, Vec.perUnit_diagMul_diagMul _ _ fun i => (ht i).ne']

/-- Growing scaling factors do so in all units. -/
theorem Scaling.grow_perUnit (s : Scaling ℝ) (d norms : Vec ℝ n) :
    s.grow (d.perUnit t) (norms.perUnit t) = (s.grow d norms).perUnit t := by
  rw [grow, grow]
  split
  · ext i
    rw [Vec.of_apply, Vec.perUnit_apply, Vec.perUnit_apply, Vec.perUnit_apply, Vec.of_apply,
      Exact.maxNum_eq, Exact.maxNum_eq]
    exact max_div_div_right (ht i).le _ _
  · rfl

/-- The scaling does not depend on the units if it follows Jacobians without zero columns. Zero
columns and given factors are not scaled, whatever the units are. -/
def Scaling.Follows (s : Scaling ℝ) (t norms : Vec ℝ n) : Prop :=
  t = Vec.const n 1 ∨ s.isAdaptive = true ∧ ∀ i, norms i ≠ 0

/-- The first scaling follows the units of the columns. -/
theorem Scaling.Follows.first {s : Scaling ℝ} {d d' norms : Vec ℝ n} (hs : s.Follows t norms)
    (hd : d' = d.perUnit t ∨ d' = d) :
    s.first d' (norms.perUnit t) = (s.first d norms).perUnit t := by
  obtain rfl | ⟨hadaptive, hne⟩ := hs
  · simp only [Vec.perUnit_one, or_self] at hd ⊢
    rw [hd]
  · rw [Scaling.first, Scaling.first, if_pos hadaptive, if_pos hadaptive]
    ext i
    have hzero : norms i / t i ≠ 0 := div_ne_zero (hne i) (ht i).ne'
    rw [Vec.map_apply, Vec.perUnit_apply, Vec.perUnit_apply, Vec.map_apply,
      if_neg (mt (Exact.beq_iff _ _).1 (hne i)), if_neg (mt (Exact.beq_iff _ _).1 hzero)]

/-- The calibration in other units. -/
theorem Iterate.calibrate_inUnits {it : Iterate ℝ m n} {scale norms : Vec ℝ n} (nm : Numerics ℝ)
    {c : Settings ℝ} (hc : c.scaling.Follows t norms)
    (hscale : scale = it.scale.perUnit t ∨ scale = it.scale ∧ it.iteration = 1) :
    (it.inUnits t scale).calibrate nm c (norms.perUnit t) =
      (it.calibrate nm c norms).inUnits t ((it.calibrate nm c norms).scale.perUnit t) := by
  have hfirst := hc.first ht (hscale.imp_right And.left)
  rw [calibrate, calibrate]
  by_cases hone : it.iteration = 1
  · have hone' : (it.inUnits t scale).iteration = 1 := hone
    have hlength : nm.scaledNorm (c.scaling.first scale (norms.perUnit t)) (t.diagMul it.x) =
        nm.scaledNorm (c.scaling.first it.scale norms) it.x := by
      rw [hfirst, nm.scaledNorm_inUnits ht]
    rw [if_pos hone, if_pos hone']
    simp only [inUnits, hfirst] at hlength ⊢
    rw [hlength]
  · have hone' : ¬ (it.inUnits t scale).iteration = 1 := hone
    rw [if_neg hone, if_neg hone']
    obtain rfl | ⟨-, hfalse⟩ := hscale
    · rfl
    · exact absurd hfalse hone

/-- A proposal in other units. -/
theorem Iterate.propose_inUnits {it : Iterate ℝ m n} {scale : Vec ℝ n} (nm : Numerics ℝ)
    (hscale : scale = it.scale.perUnit t) (step : Vec ℝ n) :
    (it.inUnits t scale).propose nm (t.diagMul step) =
      ((it.propose nm step).1.inUnits t, (it.propose nm step).2.inUnits t scale) := by
  have hlength : nm.scaledNorm scale (t.diagMul step) = nm.scaledNorm it.scale step := by
    rw [hscale, nm.scaledNorm_inUnits ht]
  have hpoint : (Vec.of fun j => t.diagMul it.x j + t.diagMul step j) =
      t.diagMul (Vec.of fun j => it.x j + step j) := by
    ext i
    simp only [Vec.of_apply, Vec.diagMul_apply, mul_add]
  simp only [propose, inUnits, Proposal.inUnits, hlength, hpoint]

/-- An accepted step in other units. -/
theorem Iterate.accept_inUnits {it : Iterate ℝ m n} {scale : Vec ℝ n} (nm : Numerics ℝ)
    (hscale : scale = it.scale.perUnit t) (point : Vec ℝ n) (f : Vec ℝ m) (norm1 : ℝ) :
    (it.inUnits t scale).accept nm (t.diagMul point) f norm1 =
      (it.accept nm point f norm1).inUnits t scale := by
  have hlength : nm.scaledNorm scale (t.diagMul point) = nm.scaledNorm it.scale point := by
    rw [hscale, nm.scaledNorm_inUnits ht]
  simp only [accept, inUnits, hlength]

end Scaling

namespace LeastSquares

/-! ### What a state knows of a Jacobian -/

/-- What a state takes from Jacobians: the scaling factors and the last factorization, as the
fields of `State` of these names. -/
structure Model (r n : Nat) where
  scale : Vec ℝ n
  factor : Mat ℝ r n
  order : Vec (Fin n) n
  rhs : Vec ℝ n

/-- The state in other units and with another model, everything else being the same. -/
noncomputable def State.inUnits (st : State ℝ m r n) (t : Vec ℝ n) (M : Model r' n) :
    State ℝ m r' n where
  toIterate := st.toIterate.inUnits t M.scale
  factor := M.factor
  order := M.order
  rhs := M.rhs
  cosine := st.cosine
  damping := st.damping
  fresh := st.fresh

/-- The factorizations of a state and of a model belong to the same normal equations and have the
same basis. -/
def Model.Factors (M : Model r' n) (t : Vec ℝ n) (h : n ≤ r) (h' : n ≤ r') (st : State ℝ m r n) :
    Prop :=
  ∃ eqs : NormalEquations n,
    eqs.Factored (st.factor.leading h).upper st.order st.rhs.get ∧
    (eqs.inUnits t.get).Factored (M.factor.leading h').upper M.order M.rhs.get ∧
    basis st.order (st.factor.leading h).diagonal.firstZero =
      basis M.order (M.factor.leading h').diagonal.firstZero

/-- What is below the diagonals of the factors does not matter. -/
theorem Model.Factors.congr {M M' : Model r' n} {t : Vec ℝ n} {h : n ≤ r} {h' : n ≤ r'}
    {st st' : State ℝ m r n} (hM : M.Factors t h h' st) (hst : st.SameFactorization st')
    (hfactor : M.factor.SameButLower M'.factor) (horder : M'.order = M.order)
    (hrhs : M'.rhs = M.rhs) : M'.Factors t h h' st' := by
  obtain ⟨eqs, hleft, hright, hbasis⟩ := hM
  have hupper := hst.factor.leading h
  have hupper' := hfactor.leading h'
  refine ⟨eqs, ?_, ?_, ?_⟩
  · rw [← hupper.upper_eq, hst.order, hst.rhs]
    exact hleft
  · rw [← hupper'.upper_eq, horder, hrhs]
    exact hright
  · rw [← hupper.diagonal_eq, ← hupper'.diagonal_eq, hst.order, horder]
    exact hbasis

/-- A model that a state may have in the units `t`. -/
structure Model.Fits (M : Model r' n) (t : Vec ℝ n) (h : n ≤ r) (h' : n ≤ r') (st : State ℝ m r n) :
    Prop where
  scale : M.scale = st.scale.perUnit t
  factors : M.Factors t h h' st

/-! ### Cosines -/

variable {h : n ≤ r} {h' : n ≤ r'}

/-- The largest of the cosines `t i` of the columns whose norm is not zero. -/
structure IsCosine (norms : Vec ℝ n) (t : Fin n → ℝ) (g : ℝ) : Prop where
  nonneg : 0 ≤ g
  upper (i : Fin n) : norms i ≠ 0 → t i ≤ g
  attained : g = 0 ∨ ∃ i, norms i ≠ 0 ∧ g = t i

/-- Of two largest cosines neither exceeds the other. -/
theorem IsCosine.le {norms : Vec ℝ n} {t : Fin n → ℝ} {g g' : ℝ} (hg : IsCosine norms t g)
    (hg' : IsCosine norms t g') : g ≤ g' := by
  obtain hzero | ⟨i, hi, heq⟩ := hg.attained
  · rw [hzero]
    exact hg'.nonneg
  · rw [heq]
    exact hg'.upper i hi

/-- There is one largest cosine. -/
theorem IsCosine.unique {norms : Vec ℝ n} {t : Fin n → ℝ} {g g' : ℝ} (hg : IsCosine norms t g)
    (hg' : IsCosine norms t g') : g = g' := le_antisymm (hg.le hg') (hg'.le hg)

/-- It only matters which norms are zero. -/
theorem IsCosine.congr {norms norms' : Vec ℝ n} {t : Fin n → ℝ} {g : ℝ} (hg : IsCosine norms t g)
    (hnorms : ∀ i, norms i = 0 ↔ norms' i = 0) : IsCosine norms' t g where
  nonneg := hg.nonneg
  upper i hi := hg.upper i (mt (hnorms i).1 hi)
  attained := hg.attained.imp_right fun ⟨i, hi, heq⟩ => ⟨i, mt (hnorms i).2 hi, heq⟩

/-- The loop over the columns, in whatever order they are, finds the largest of the cosines. -/
theorem isCosine_foldl {order : Vec (Fin n) n} (hbij : Function.Bijective order.get)
    (norms : Vec ℝ n) (t : Fin n → ℝ) :
    IsCosine norms (fun i => |t i|) (Fin.foldl n (fun (g : ℝ) j =>
      if norms (order j) == 0 then g else maxNum g (mag (t (order j)))) 0) := by
  have hloop := foldl_invariant
    (f := fun (g : ℝ) j => if norms (order j) == 0 then g else maxNum g (mag (t (order j))))
    (b := (0 : ℝ))
    (motive := fun k g => 0 ≤ g ∧
      (∀ j : Fin n, j.val < k → norms (order j) ≠ 0 → |t (order j)| ≤ g) ∧
      (g = 0 ∨ ∃ i, norms i ≠ 0 ∧ g = |t i|))
    ⟨le_rfl, fun j hj => absurd hj (Nat.not_lt_zero _), Or.inl rfl⟩
    fun j g hg => by
      obtain ⟨hnonneg, hupper, hattained⟩ := hg
      by_cases hzero : norms (order j) = 0
      · -- a column whose norm is zero is passed over
        rw [if_pos ((Exact.beq_iff _ _).2 hzero)]
        refine ⟨hnonneg, ?_, hattained⟩
        intro l hl hne
        obtain hlt | heq := Nat.lt_succ_iff_lt_or_eq.1 hl
        · exact hupper l hlt hne
        · obtain rfl : l = j := Fin.ext heq
          exact absurd hzero hne
      · rw [if_neg (mt (Exact.beq_iff _ _).1 hzero), Exact.maxNum_eq, Exact.mag_eq]
        refine ⟨le_max_of_le_left hnonneg, ?_, ?_⟩
        · intro l hl hne
          obtain hlt | heq := Nat.lt_succ_iff_lt_or_eq.1 hl
          · exact le_max_of_le_left (hupper l hlt hne)
          · obtain rfl : l = j := Fin.ext heq
            exact le_max_right _ _
        · rcases max_choice g |t (order j)| with hg | hg
          · rw [hg]
            exact hattained
          · rw [hg]
            exact Or.inr ⟨order j, hzero, rfl⟩
  obtain ⟨hnonneg, hupper, hattained⟩ := hloop
  refine ⟨hnonneg, ?_, hattained⟩
  intro i hi
  obtain ⟨j, rfl⟩ := hbij.surjective i
  exact hupper j j.isLt hi

/-- The cosine of a state is the largest one of the columns. -/
theorem isCosine_gradientCosine {eqs : NormalEquations n} (st : State ℝ m r n)
    (hst : eqs.Factored (st.factor.leading h).upper st.order st.rhs.get) (norms : Vec ℝ n)
    (hres : st.residualNorm ≠ 0) :
    IsCosine norms (fun i => |eqs.rhs i / st.residualNorm / norms i|)
      (st.gradientCosine h norms) := by
  -- the scalar product with a column is an entry of the right hand side of the normal equations
  have hproduct : ∀ j : Fin n,
      sumWhere (· ≤ j) (fun i => st.factor (i.castLE h) j * (st.rhs i / st.residualNorm)) =
        eqs.rhs (st.order j) / st.residualNorm := by
    intro j
    have hgradient := congrFun hst.gradient j
    have hsum := Subproblem.sumWhere_upper (st.factor.leading h)
      (st.residualNorm⁻¹ • st.rhs.get) j
    rw [mulVec_smul, Pi.smul_apply, hgradient] at hsum
    simp only [Mat.leading_apply] at hsum
    rw [div_eq_inv_mul]
    simp only [div_eq_inv_mul]
    exact hsum
  rw [State.gradientCosine, if_neg (mt (Exact.beq_iff _ _).1 hres)]
  simp only [hproduct]
  exact isCosine_foldl hst.bijective norms fun i => eqs.rhs i / st.residualNorm / norms i

/-- The change of the residuals that the linear model predicts is the product of the factor with the
reordered step. -/
theorem State.linearChange_get (h : n ≤ r) (st : State ℝ m r n) (p : Vec ℝ n) :
    (st.linearChange h p).get = (st.factor.leading h).upper *ᵥ (p.get ∘ st.order.get) := by
  funext i
  rw [State.linearChange, Vec.of_apply, Exact.sumWhere_eq]
  change _ = ∑ j, (st.factor.leading h).upper i j * p (st.order j)
  refine Finset.sum_congr rfl ?_
  intro j _
  by_cases hij : i ≤ j
  · rw [if_pos hij, Mat.upper_of_le _ hij, Mat.leading_apply]
  · rw [if_neg hij, Mat.upper_of_lt _ (not_le.1 hij), zero_mul]

/-! ### The parts of the method -/

section Parts

variable {t : Vec ℝ n} (ht : ∀ i, 0 < t i) {st : State ℝ m r n} {M : Model r' n}

include ht

/-- The cosine depends on the normal equations only. -/
theorem gradientCosine_inUnits (hM : M.Factors t h h' st) (norms : Vec ℝ n) :
    (st.inUnits t M).gradientCosine h' (norms.perUnit t) = st.gradientCosine h norms := by
  obtain ⟨eqs, hleft, hright, -⟩ := hM
  by_cases hres : st.residualNorm = 0
  · have hbeq : (st.residualNorm == 0) = true := (Exact.beq_iff _ _).2 hres
    have hbeq' : ((st.inUnits t M).residualNorm == 0) = true := hbeq
    rw [State.gradientCosine, State.gradientCosine, if_pos hbeq, if_pos hbeq']
  · have hcosine := isCosine_gradientCosine st hleft norms hres
    have hcosine' := isCosine_gradientCosine (st.inUnits t M) hright (norms.perUnit t) hres
    -- both are the largest of the same cosines, as the units cancel
    have hsame : (fun i => |(eqs.inUnits t.get).rhs i / (st.inUnits t M).residualNorm /
        norms.perUnit t i|) = fun i => |eqs.rhs i / st.residualNorm / norms i| := by
      funext i
      have hi := (ht i).ne'
      rw [Vec.perUnit_apply]
      congr 1
      change eqs.rhs i / t i / st.residualNorm / (norms i / t i) = _
      rw [div_right_comm (eqs.rhs i), div_div_div_cancel_right₀ hi]
    rw [hsame] at hcosine'
    refine (hcosine'.congr ?_).unique hcosine
    intro i
    rw [Vec.perUnit_apply, div_eq_zero_iff, or_iff_left (ht i).ne']

/-- The subproblems of the two states are equivalent. -/
theorem equivalent_subproblem (hM : M.Fits t h h' st) : ∃ eqs : NormalEquations n,
    Subproblem.Equivalent t eqs (st.subproblem h) ((st.inUnits t M).subproblem h') := by
  obtain ⟨hscale, eqs, hleft, hright, hbasis⟩ := hM
  exact ⟨eqs, fun i => (ht i).ne', hleft, hright, hbasis, hscale, rfl⟩

/-- The predicted change of the residuals has the same length. -/
theorem vecNorm_linearChange_inUnits (hM : M.Factors t h h' st) (p : Vec ℝ n) :
    (Numerics.exact ε τ z).vecNorm ((st.inUnits t M).linearChange h' (t.diagMul p)) =
      (Numerics.exact ε τ z).vecNorm (st.linearChange h p) := by
  obtain ⟨eqs, hleft, hright, -⟩ := hM
  have hget : (t.diagMul p).get = fun i => t i * p i := funext fun i => Vec.diagMul_apply t p i
  have hdot := hleft.mulVec_dot_mulVec_inUnits hright (fun i => (ht i).ne') p.get p.get
  rw [Numerics.vecNorm_eq_sqrt_dot, Numerics.vecNorm_eq_sqrt_dot, State.linearChange_get,
    State.linearChange_get, hget]
  exact congrArg Real.sqrt hdot

/-- The gain of a trial step depends on the normal equations only. -/
theorem gain_inUnits (hM : M.Factors t h h' st) (prop : Proposal ℝ n) (norm1 : ℝ) :
    (st.inUnits t M).gain (Numerics.exact ε τ z) h' (prop.inUnits t) norm1 =
      st.gain (Numerics.exact ε τ z) h prop norm1 := by
  have hstep : (prop.inUnits t).step = t.diagMul prop.step := rfl
  rw [State.gain, State.gain, hstep, vecNorm_linearChange_inUnits ht hM]
  rfl

omit ht in
/-- The adaptation in terms of the calibrated state. -/
theorem adapt_of_calibrate (nm : Numerics ℝ) (c : Config ℝ) (h : n ≤ r) (norms : Vec ℝ n)
    {st st₁ : State ℝ m r n}
    (hst₁ : { st with toIterate := st.toIterate.calibrate nm c.toSettings norms } = st₁) :
    st.adapt nm c h norms =
      if st₁.gradientCosine h norms ≤ c.gtol then
        (some .orthogonal, { st₁ with cosine := st₁.gradientCosine h norms })
      else (none, { st₁ with
        cosine := st₁.gradientCosine h norms
        toIterate := st₁.toIterate.rescale c.toSettings norms }) := by
  rw [← hst₁]
  rfl

/-- The adaptation to a Jacobian depends on its normal equations and on the scaling only. -/
theorem adapt_inUnits (hM : M.Factors t h h' st)
    (hscale : M.scale = st.scale.perUnit t ∨ M.scale = st.scale ∧ st.iteration = 1) {c : Config ℝ}
    {norms : Vec ℝ n} (hc : c.scaling.Follows t norms) :
    ∃ M' : Model r' n,
      (st.inUnits t M).adapt (Numerics.exact ε τ z) c h' (norms.perUnit t) =
          ((st.adapt (Numerics.exact ε τ z) c h norms).1,
            (st.adapt (Numerics.exact ε τ z) c h norms).2.inUnits t M') ∧
        M'.Fits t h h' (st.adapt (Numerics.exact ε τ z) c h norms).2 := by
  set st₁ : State ℝ m r n := { st with
    toIterate := st.toIterate.calibrate (Numerics.exact ε τ z) c.toSettings norms } with hst₁
  set M₁ : Model r' n := { M with scale := st₁.scale.perUnit t } with hM₁
  have hfactors : M₁.Factors t h h' st₁ := hM
  have hcalibrate : ({ st.inUnits t M with
      toIterate := (st.inUnits t M).toIterate.calibrate (Numerics.exact ε τ z) c.toSettings
        (norms.perUnit t) } : State ℝ m r' n) = st₁.inUnits t M₁ := by
    have hiterate := Iterate.calibrate_inUnits ht (Numerics.exact ε τ z) hc hscale
    change ({ st.inUnits t M with toIterate := _ } : State ℝ m r' n) = _
    rw [State.inUnits, hiterate]
    rfl
  -- of all that the adaptation computes only the cosine depends on the factorization
  have hcosine := gradientCosine_inUnits ht hfactors norms
  rw [adapt_of_calibrate _ c h norms hst₁.symm, adapt_of_calibrate _ c h' _ hcalibrate, hcosine]
  split
  · exact ⟨M₁, rfl, rfl, hfactors⟩
  · refine ⟨{ M₁ with scale := (c.scaling.grow st₁.scale norms).perUnit t }, ?_, rfl, hfactors⟩
    have hgrow := Scaling.grow_perUnit ht c.scaling st₁.scale norms
    have hrescale : (st₁.inUnits t M₁).toIterate.rescale c.toSettings (norms.perUnit t) =
        (st₁.toIterate.rescale c.toSettings norms).inUnits t
          ((c.scaling.grow st₁.scale norms).perUnit t) := by
      rw [← hgrow]
      rfl
    rw [hrescale]
    rfl

/-- The proposal depends on the normal equations and on the scaling only. What it leaves below the
diagonals of the factors differs. -/
theorem propose_inUnits (hM : M.Fits t h h' st) (hτ : 0 < τ) (hproper : st.Proper) :
    ∃ M' : Model r' n,
      (st.inUnits t M).propose (Numerics.exact ε τ z) h' =
          ((st.propose (Numerics.exact ε τ z) h).1.inUnits t,
            (st.propose (Numerics.exact ε τ z) h).2.inUnits t M') ∧
        M'.Fits t h h' (st.propose (Numerics.exact ε τ z) h).2 := by
  obtain ⟨eqs, hequiv⟩ := equivalent_subproblem ht hM
  obtain ⟨hstep, hdamping⟩ := hequiv.solve_eq (ε := ε) (z := z) hproper.scale_pos
    hproper.radius_nonneg hτ st.damping
  have hstep' : ((((st.inUnits t M).subproblem h').solve (Numerics.exact ε τ z)
      (st.inUnits t M).damping).step.map fun p => -p) =
      t.diagMul (((st.subproblem h).solve (Numerics.exact ε τ z) st.damping).step.map
        fun p => -p) := by
    rw [← Vec.diagMul_neg, ← hstep]
    rfl
  have hdamping' : (((st.inUnits t M).subproblem h').solve (Numerics.exact ε τ z)
      (st.inUnits t M).damping).damping =
      ((st.subproblem h).solve (Numerics.exact ε τ z) st.damping).damping := hdamping.symm
  have hiterate := Iterate.propose_inUnits ht (Numerics.exact ε τ z) hM.scale
    (((st.subproblem h).solve (Numerics.exact ε τ z) st.damping).step.map fun p => -p)
  have hleft := factorization_propose (Numerics.exact ε τ z) h st
  have hright := factorization_propose (Numerics.exact ε τ z) h' (st.inUnits t M)
  refine ⟨{ M with factor := ((st.inUnits t M).propose (Numerics.exact ε τ z) h').2.factor }, ?_,
    hM.scale, hM.factors.congr hleft hright.factor rfl rfl⟩
  simp only [State.propose, hstep', hdamping']
  change ((((st.toIterate.inUnits t M.scale).propose _ _).1), _) = _
  rw [State.inUnits, hiterate]
  rfl

/-- Acceptance depends on the normal equations only. -/
theorem accepts_inUnits (hM : M.Factors t h h' st) (prop : Proposal ℝ n) (f : Vec ℝ m) :
    accepts (Numerics.exact ε τ z) h' (st.inUnits t M) (prop.inUnits t) f =
      accepts (Numerics.exact ε τ z) h st prop f := by
  rw [accepts, accepts, gain_inUnits ht hM]

/-- The move to an accepted point in other units. -/
theorem State.accept_inUnits (nm : Numerics ℝ) (hscale : M.scale = st.scale.perUnit t)
    (point : Vec ℝ n) (f : Vec ℝ m) (norm1 : ℝ) :
    { st.inUnits t M with
        toIterate := (st.inUnits t M).toIterate.accept nm (t.diagMul point) f norm1
        fresh := true } =
      State.inUnits
        { st with toIterate := st.toIterate.accept nm point f norm1, fresh := true } t M := by
  have haccept := Iterate.accept_inUnits ht nm hscale point f norm1
  have hiterate : (st.inUnits t M).toIterate.accept nm (t.diagMul point) f norm1 =
      (st.toIterate.accept nm point f norm1).inUnits t M.scale := haccept
  rw [hiterate]
  rfl

/-- Deciding on a step is the same in all units. -/
theorem after_inUnits (hM : M.Fits t h h' st) (prop : Proposal ℝ n) (f : Vec ℝ m) :
    (st.inUnits t M).after (Numerics.exact ε τ z) h' (prop.inUnits t) f =
      (st.after (Numerics.exact ε τ z) h prop f).inUnits t M := by
  have hresize : ∀ (g : Gain ℝ) (length norm1 : ℝ),
      (st.inUnits t M).resize g length norm1 = (st.resize g length norm1).inUnits t M := by
    intro g length norm1
    rw [State.resize, State.resize]
    -- the radius and the damping do not depend on the model
    split
    · rfl
    · change (if st.damping == 0 || decide (0.75 ≤ g.ratio) then _ else _) = _
      split <;> rfl
  rw [State.after, State.after, accepts_inUnits ht hM.factors, gain_inUnits ht hM.factors, hresize]
  simp only
  split
  · refine State.accept_inUnits ht (Numerics.exact ε τ z) ?_ prop.point f _
    rw [scale_resize, hM.scale]
  · rfl

omit ht in
/-- After a trial step the model still fits. -/
theorem Model.Fits.after (hM : M.Fits t h h' st) (prop : Proposal ℝ n) (f : Vec ℝ m) :
    M.Fits t h h' (st.after (Numerics.exact ε τ z) h prop f) := by
  refine ⟨?_, hM.factors.congr (factorization_after _ h st prop f) (.refl _) rfl rfl⟩
  rw [scale_after, hM.scale]

/-- The verdict depends on the normal equations and on the scaling only. -/
theorem judge_inUnits (hM : M.Fits t h h' st) (c : Config ℝ) (budget : Nat) (prop : Proposal ℝ n)
    (f : Vec ℝ m) :
    (st.inUnits t M).judge (Numerics.exact ε τ z) c budget h' (prop.inUnits t) f =
      ((st.judge (Numerics.exact ε τ z) c budget h prop f).1,
        (st.judge (Numerics.exact ε τ z) c budget h prop f).2.inUnits t M) := by
  rw [judge_eq, judge_eq, accepts_inUnits ht hM.factors, after_inUnits ht hM,
    gain_inUnits ht hM.factors]
  rfl

end Parts

/-! ### Scaling factors and radius -/

/-- Adapting the scaling to norms of columns keeps a state proper. -/
theorem proper_adapt {st : State ℝ m r n} (hst : st.Proper) {c : Config ℝ}
    (hbound : 0 < c.stepBound) {norms : Vec ℝ n} (hnorms : ∀ j, 0 ≤ norms j) :
    (st.adapt (Numerics.exact ε τ z) c h norms).2.Proper := by
  have hcalibrate := hst.calibrate (ε := ε) (τ := τ) (z := z) (c := c.toSettings) hbound hnorms
  rw [State.adapt]
  split
  · exact hcalibrate
  · exact hcalibrate.rescale norms

/-- Deciding on a step keeps a state proper. -/
theorem proper_after {st : State ℝ m r n} (hst : st.Proper) {t : Proposal ℝ n}
    (hlength : 0 ≤ t.length) (f : Vec ℝ m) :
    (st.after (Numerics.exact ε τ z) h t f).Proper := by
  have hresize := hst.resize (st.gain (Numerics.exact ε τ z) h t ((Numerics.exact ε τ z).vecNorm f))
    hlength ((Numerics.exact ε τ z).vecNorm f)
  rw [State.after]
  split
  · exact ⟨hresize.scale_pos, hresize.radius_nonneg⟩
  · exact hresize

/-! ### Moments -/

/-- The moment in other units, with another model in its state. The states of the callbacks are
given by `g`. -/
noncomputable def converted (mo : Moment σ ℝ n (State ℝ m r n)) (t : Vec ℝ n) (g : σ → σ')
    (M : Model r' n) : Moment σ' ℝ n (State ℝ m r' n) where
  stage := mo.stage.inUnits t
  state := mo.state.inUnits t M
  world := g mo.world
  base := t.diagMul mo.base

/-- Whether the factorization of a moment is still going to be used. -/
def InUse (mo : Moment σ ℝ n (State ℝ m r n)) : Prop :=
  match mo.stage with
  | .ready => mo.state.fresh = false
  | .prepared => True
  | .proposed _ => True
  | .ended _ => False

/-- The scaling factors of the model are those of the state in the units `t`, unless there has not
yet been any Jacobian. -/
def Model.Scales (M : Model r' n) (t : Vec ℝ n) (st : State ℝ m r n) : Prop :=
  M.scale = st.scale.perUnit t ∨ M.scale = st.scale ∧ st.iteration = 1

/-- Two moments of solves in step: they differ in the units and in the models only, and as long as
these are going to be used, they fit. -/
structure InStep (t : Vec ℝ n) (g : σ → σ') (h : n ≤ r) (h' : n ≤ r')
    (mo : Moment σ ℝ n (State ℝ m r n)) (mo' : Moment σ' ℝ n (State ℝ m r' n)) : Prop where
  same : ∃ M : Model r' n, mo' = converted mo t g M ∧ M.Scales t mo.state ∧
    (InUse mo → M.Fits t h h' mo.state)
  proper : mo.state.Proper
  length_nonneg (prop : Proposal ℝ n) : mo.stage = .proposed prop → 0 ≤ prop.length

/-- From the state `st` both linearizations are aborted, or both are completed, with the same normal
equations in different units. -/
def Linearize.InStep (t : Vec ℝ n) (g : σ → σ') (h : n ≤ r) (h' : n ≤ r') (c : Config ℝ)
    (l : Linearize σ ℝ m r n) (l' : Linearize σ' ℝ m r' n) (st : State ℝ m r n) (s : σ) : Prop :=
  ∀ M : Model r' n, M.Scales t st → ∃ M' : Model r' n, M'.scale = M.scale ∧
    l' (st.inUnits t M) (g s) =
      ((l st s).1.map (Vec.perUnit · t), (l st s).2.1.inUnits t M', g (l st s).2.2) ∧
    ∀ norms, (l st s).1 = .ok norms →
      (∀ i, 0 ≤ norms i) ∧ c.scaling.Follows t norms ∧ M'.Factors t h h' (l st s).2.1

/-! ### Moves -/

section Moves

variable {t : Vec ℝ n} (ht : ∀ i, 0 < t i) {g : σ → σ'} {p : Problem σ ℝ m n}
  {q : Problem σ' ℝ m n} {c : Config ℝ} {l : Linearize σ ℝ m r n} {l' : Linearize σ' ℝ m r' n}

include ht

/-- Proposals of states in step. -/
theorem inStep_proposal {st : State ℝ m r n} {M : Model r' n} (hM : M.Fits t h h' st) (hτ : 0 < τ)
    (hproper : st.Proper) (s : σ) (b : Vec ℝ n) :
    let prop := st.propose (Numerics.exact ε τ z) h
    let prop' := (st.inUnits t M).propose (Numerics.exact ε τ z) h'
    InStep t g h h' ⟨.proposed prop.1, prop.2, s, b⟩
      ⟨.proposed prop'.1, prop'.2, g s, t.diagMul b⟩ := by
  intro prop prop'
  -- the subproblems of the two states have the same solution
  obtain ⟨M', hpropose, hfits⟩ := propose_inUnits (ε := ε) (z := z) ht hM hτ hproper
  simp only [prop', hpropose]
  refine ⟨⟨M', rfl, .inl hfits.scale, fun _ => hfits⟩, ?_, ?_⟩
  · have hiterate := hproper.propose (ε := ε) (τ := τ) (z := z)
      (((st.subproblem h).solve (Numerics.exact ε τ z) st.damping).step.map fun p => -p)
    exact ⟨hiterate.scale_pos, hiterate.radius_nonneg⟩
  · intro prop₁ hprop₁
    cases hprop₁
    exact Iterate.Proper.scaledNorm_nonneg (ε := ε) (τ := τ) (z := z) _ _

/-- Verdicts on states in step. -/
theorem inStep_verdict {st : State ℝ m r n} {M : Model r' n} (hM : M.Fits t h h' st)
    (hproper : st.Proper) (budget : Nat) {prop : Proposal ℝ n} (hlength : 0 ≤ prop.length)
    (f : Vec ℝ m) (s : σ) (b : Vec ℝ n) :
    let verdict := st.judge (Numerics.exact ε τ z) c budget h prop f
    let verdict' := (st.inUnits t M).judge (Numerics.exact ε τ z) c budget h' (prop.inUnits t) f
    InStep t g h h' ⟨.ofVerdict verdict.1, verdict.2, s, b⟩
      ⟨.ofVerdict verdict'.1, verdict'.2, g s, t.diagMul b⟩ := by
  intro verdict verdict'
  have hjudge : verdict' = (verdict.1, verdict.2.inUnits t M) :=
    judge_inUnits ht hM c budget prop f
  have hafter : verdict.2 = st.after (Numerics.exact ε τ z) h prop f := by
    simp only [verdict, judge_eq]
  have hfits : M.Fits t h h' verdict.2 := by
    rw [hafter]
    exact hM.after prop f
  rw [hjudge]
  refine ⟨⟨M, ?_, .inl hfits.scale, fun _ => hfits⟩, ?_, ?_⟩
  · rw [converted]
    cases verdict.1 <;> rfl
  · change verdict.2.Proper
    rw [hafter]
    exact proper_after hproper hlength f
  · -- no proposal stands after a verdict
    intro prop' hprop'
    simp only [Stage.ofVerdict] at hprop'
    split at hprop' <;> cases hprop'

omit ht in
/-- The same report is made in all units. -/
theorem reportIfDue_inUnits (hpq : p.InUnits t g q) (c : Settings ℝ) (st : State ℝ m r n)
    (M : Model r' n) (s : σ) :
    (st.inUnits t M).toIterate.reportIfDue c q (g s) =
      ((st.toIterate.reportIfDue c p s).1, g (st.toIterate.reportIfDue c p s).2) := by
  unfold Iterate.reportIfDue
  change (if c.reportDue st.iteration then q.report st.iteration (t.diagMul st.x) st.residuals (g s)
    else _) = _
  rw [hpq.report]
  split <;> rfl

/-- Preparations of states in step. -/
theorem prepare_inUnits (hpq : p.InUnits t g q) (hl : l.Recounts) (hbound : 0 < c.stepBound)
    {st : State ℝ m r n} (hproper : st.Proper) {s : σ}
    (hlin : ∀ s', linearizesFrom? c.toSettings p st s = some s' →
      Linearize.InStep t g h h' c l l' st s')
    {M : Model r' n} (hscale : M.Scales t st) (hM : st.fresh = false → M.Fits t h h' st) :
    let prep := prepare (Numerics.exact ε τ z) c h p l st s
    prep.2.1.Proper ∧ ∃ M' : Model r' n,
      prepare (Numerics.exact ε τ z) c h' q l' (st.inUnits t M) (g s) =
        (prep.1, prep.2.1.inUnits t M', g prep.2.2) ∧
      M'.Scales t prep.2.1 ∧ (prep.1 = none → M'.Fits t h h' prep.2.1) := by
  intro prep
  have hfresh : (st.inUnits t M).fresh = st.fresh := rfl
  have hreports := reportIfDue_inUnits hpq c.toSettings st M s
  cases hst : st.fresh with
  | false =>
    -- the factorizations are used once more
    simp only [prep, prepare, hfresh, hst, Bool.false_eq_true, if_false]
    exact ⟨hproper, M, rfl, hscale, fun _ => hM hst⟩
  | true =>
    simp only [prep, prepare, hfresh, hst, if_true, hreports]
    rcases hreport : st.toIterate.reportIfDue c.toSettings p s with ⟨e | _, s'⟩
    · exact ⟨hproper, M, rfl, hscale, fun hnone => by cases hnone⟩
    · obtain ⟨M₁, hM₁, hright, hok⟩ := hlin s' (linearizesFrom?_eq_some.2 ⟨hst, hreport⟩) M
        hscale
      have hiterate := (hl st s').eq
      rcases hleft : l st s' with ⟨result, st₁, s₁⟩
      simp only [hleft] at hright hiterate hok
      -- the linearization leaves the scaling factors and the radius alone
      have hproper₁ : st₁.Proper := by
        rw [hiterate]
        exact ⟨hproper.scale_pos, hproper.radius_nonneg⟩
      have hscale₁ : M₁.Scales t st₁ := by
        rw [Model.Scales, hM₁, hiterate]
        exact hscale
      rcases result with e | norms
      · simp only [hleft, hright, Except.map]
        exact ⟨hproper₁, M₁, rfl, hscale₁, fun hnone => by cases hnone⟩
      · obtain ⟨hnorms, hfollows, hfactors⟩ := hok norms rfl
        obtain ⟨M₂, hadapt, hfits⟩ := adapt_inUnits (ε := ε) (τ := τ) (z := z) ht hfactors hscale₁
          hfollows
        simp only [hleft, hright, Except.map, hadapt]
        exact ⟨proper_adapt hproper₁ hbound hnorms, M₂, rfl, .inl hfits.scale, fun _ => hfits⟩

/-- Moments in step are followed by moments in step. -/
theorem InStep.next (hpq : p.InUnits t g q) (hl : l.Recounts) (hbound : 0 < c.stepBound)
    (hτ : 0 < τ) (budget : Nat) {mo : Moment σ ℝ n (State ℝ m r n)}
    {mo' : Moment σ' ℝ n (State ℝ m r' n)} (hstep : InStep t g h h' mo mo')
    (hlin : ∀ s, mo.stage = .ready → linearizesFrom? c.toSettings p mo.state mo.world = some s →
      Linearize.InStep t g h h' c l l' mo.state s) :
    InStep t g h h'
      ((method (Numerics.exact ε τ z) c budget h p l).next (accepts (Numerics.exact ε τ z) h) p mo)
      ((method (Numerics.exact ε τ z) c budget h' q l').next (accepts (Numerics.exact ε τ z) h') q
        mo') := by
  obtain ⟨⟨M, rfl, hscale, hfits⟩, hproper, hlength⟩ := hstep
  obtain ⟨stage, st, s, base⟩ := mo
  cases stage with
  | ready =>
    -- if the round goes on, it does so with two factorizations of the same normal equations
    obtain ⟨hproper', M', hprepare, hscale', hfits'⟩ := prepare_inUnits (ε := ε) (τ := τ) (z := z)
      ht hpq hl hbound hproper (fun s' hs' => hlin s' rfl hs') hscale hfits
    change InStep t g h h' _ (Method.next _ _ _ ⟨.ready, st.inUnits t M, g s, t.diagMul base⟩)
    rw [Method.next_ready, Method.next_ready]
    simp only [method, hprepare]
    set prep := prepare (Numerics.exact ε τ z) c h p l st s with hprep
    rcases hreason : prep.1 with _ | reason
    · exact ⟨⟨M', rfl, hscale', fun _ => hfits' hreason⟩, hproper',
        fun prop hprop => by cases hprop⟩
    · exact ⟨⟨M', rfl, hscale', fun hfalse => hfalse.elim⟩, hproper',
        fun prop hprop => by cases hprop⟩
  | prepared =>
    change InStep t g h h' _ (Method.next _ _ _ ⟨.prepared, st.inUnits t M, g s, t.diagMul base⟩)
    rw [Method.next_prepared, Method.next_prepared]
    exact inStep_proposal ht (hfits trivial) hτ hproper s base
  | proposed prop =>
    -- both solves evaluate the residuals at the same point
    have heval' := hpq.evaluate prop.point s
    change InStep t g h h' _
      (Method.next _ _ _ ⟨.proposed (prop.inUnits t), st.inUnits t M, g s, t.diagMul base⟩)
    rcases heval : p.evaluate prop.point s with ⟨e | f, s'⟩
    · rw [heval] at heval'
      rw [Method.next_proposed_of_error heval, Method.next_proposed_of_error heval']
      exact ⟨⟨M, rfl, hscale, fun hfalse => hfalse.elim⟩, hproper, fun prop hprop => by cases hprop⟩
    · rw [heval] at heval'
      rw [Method.next_proposed_of_ok heval, Method.next_proposed_of_ok heval',
        accepts_inUnits ht (hfits trivial).factors]
      have hverdict := inStep_verdict (ε := ε) (τ := τ) (z := z) (c := c) (g := g) ht
        (hfits trivial) hproper budget (hlength prop rfl) f s'
        (if accepts (Numerics.exact ε τ z) h st prop f then prop.point else base)
      rw [apply_ite t.diagMul] at hverdict
      exact hverdict
  | ended reason =>
    exact ⟨⟨M, rfl, hscale, fun hfalse => hfalse.elim⟩, hproper, fun prop hprop => by cases hprop⟩

omit ht in
/-- The first evaluation leaves the scaling factors alone and does not begin an iteration. -/
theorem scale_evaluate (nm : Numerics ℝ) (p : Problem σ ℝ m n) (it : Iterate ℝ m n) (s : σ) :
    (it.evaluate nm p s).2.1.scale = it.scale ∧
      (it.evaluate nm p s).2.1.iteration = it.iteration := by
  rw [Iterate.evaluate]
  simp only
  rcases p.evaluate it.x s with ⟨e | f, s'⟩ <;> exact ⟨rfl, rfl⟩

omit ht in
/-- First evaluations in step. -/
theorem evaluate_inUnits (hpq : p.InUnits t g q) (nm : Numerics ℝ) (it : Iterate ℝ m n)
    (scale : Vec ℝ n) (s : σ) :
    (it.inUnits t scale).evaluate nm q (g s) =
      ((it.evaluate nm p s).1, (it.evaluate nm p s).2.1.inUnits t scale,
        g (it.evaluate nm p s).2.2) := by
  have heval := hpq.evaluate it.x s
  simp only [Iterate.evaluate, Iterate.inUnits, heval]
  rcases p.evaluate it.x s with ⟨e | f, s'⟩ <;> rfl

/-! ### Solves -/

omit ht in
/-- Solves in step begin in step. -/
theorem inStep_opening (hpq : p.InUnits t g q) (hc : c.toSettings.fault? n = none) (budget : Nat)
    (x : Vec ℝ n) (s : σ) :
    InStep t g h h'
      ((method (Numerics.exact ε τ z) c budget h p l).opening (Numerics.exact ε τ z) c.toSettings p
        x s)
      ((method (Numerics.exact ε τ z) c budget h' q l').opening (Numerics.exact ε τ z) c.toSettings
        q (t.diagMul x) (g s)) := by
  set it : Iterate ℝ m n := Iterate.start c.toSettings x with hit
  have hproper : (it.evaluate (Numerics.exact ε τ z) p s).2.1.Proper :=
    (Iterate.Proper.start hc x).evaluate p s
  have hscale := scale_evaluate (Numerics.exact ε τ z) p it s
  have hstart : Iterate.start c.toSettings (t.diagMul x) = it.inUnits t it.scale := rfl
  simp only [Method.opening, hstart, evaluate_inUnits hpq, ← hit]
  -- there is no model yet
  refine ⟨⟨⟨it.scale, Mat.zero r' n, Vec.identity n, Vec.zero n⟩, ?_, .inr ?_, ?_⟩, hproper, ?_⟩
  · rw [converted]
    cases (it.evaluate (Numerics.exact ε τ z) p s).1 <;> rfl
  · exact ⟨hscale.1.symm, hscale.2⟩
  · -- the first thing to do is to linearize, so the factorization is not used
    intro hused
    cases hreason : (it.evaluate (Numerics.exact ε τ z) p s).1 with
    | none =>
      rw [hreason] at hused
      have hfresh : true = false := hused
      cases hfresh
    | some reason =>
      rw [hreason] at hused
      exact hused.elim
  · intro prop hprop
    simp only [Stage.ofVerdict] at hprop
    split at hprop <;> cases hprop

/-- Solves are in step at every moment, if their linearizations are. -/
theorem inStep_course (hpq : p.InUnits t g q) (hl : l.Recounts) (hc : c.toSettings.fault? n = none)
    (hτ : 0 < τ) (budget : Nat) (x : Vec ℝ n) (s : σ)
    (hlin : ∀ k s₁,
      let mo := (method (Numerics.exact ε τ z) c budget h p l).course
        (accepts (Numerics.exact ε τ z) h) (Numerics.exact ε τ z) c.toSettings p x s k
      mo.stage = .ready → linearizesFrom? c.toSettings p mo.state mo.world = some s₁ →
        Linearize.InStep t g h h' c l l' mo.state s₁)
    (k : Nat) :
    InStep t g h h'
      ((method (Numerics.exact ε τ z) c budget h p l).course (accepts (Numerics.exact ε τ z) h)
        (Numerics.exact ε τ z) c.toSettings p x s k)
      ((method (Numerics.exact ε τ z) c budget h' q l').course (accepts (Numerics.exact ε τ z) h')
        (Numerics.exact ε τ z) c.toSettings q (t.diagMul x) (g s) k) := by
  induction k with
  | zero => exact inStep_opening hpq hc budget x s
  | succ k ih =>
    rw [Method.course_succ, Method.course_succ]
    exact ih.next ht hpq hl (Settings.of_fault? hc).1 hτ budget (hlin k)

end Moves

section Run

variable (c : Config ℝ) {patience : Nat} (hpat : 0 < patience) (rows : n ≤ m → n ≤ r)
  (rows' : n ≤ m → n ≤ r') {l : n ≤ m → Linearize σ ℝ m r n} {l' : n ≤ m → Linearize σ' ℝ m r' n}
  (hl : ∀ h, (l h).Recounts) (hl' : ∀ h, (l' h).Recounts) {t : Vec ℝ n} (ht : ∀ i, 0 < t i)
  {g : σ → σ'} {p : Problem σ ℝ m n} {q : Problem σ' ℝ m n} (hpq : p.InUnits t g q) (hτ : 0 < τ)
  (x : Vec ℝ n) (s : σ)
  (hlin : ∀ h k s₁, let mo := course (Numerics.exact ε τ z) c patience p rows l x s k
    c.fault? n = none → mo.stage = .ready →
      linearizesFrom? c.toSettings p mo.state mo.world = some s₁ →
        Linearize.InStep t g (rows h) (rows' h) c (l h) (l' h) mo.state s₁)

include hl ht hpq hτ hlin

/-- The moments of the two solves differ in the units and in the models only. -/
theorem exists_course_converted (k : Nat) :
    ∃ M : Model r' n,
      course (Numerics.exact ε τ z) c patience q rows' l' (t.diagMul x) (g s) k =
        converted (course (Numerics.exact ε τ z) c patience p rows l x s k) t g M ∧
      M.Scales t (course (Numerics.exact ε τ z) c patience p rows l x s k).state := by
  by_cases h : n ≤ m
  · rcases hc : c.fault? n with _ | e
    · have hlin_h := hlin h
      rw [course_eq h hc] at hlin_h
      have hstep := inStep_course ht hpq (hl h) (Config.settings_fault? hc) hτ
        (c.budget patience n) x s (fun k s₁ => hlin_h k s₁ hc) k
      rw [course_eq h hc, course_eq h hc]
      obtain ⟨M, heq, hscale, -⟩ := hstep.same
      exact ⟨M, heq, hscale⟩
    · -- a rejected solve rests in its first moment, and so does the other one
      refine ⟨⟨c.scaling.initial n, Mat.zero r' n, Vec.identity n, Vec.zero n⟩, ?_⟩
      simp only [course, dif_pos h, hc]
      exact ⟨rfl, .inr ⟨rfl, rfl⟩⟩
  · refine ⟨⟨c.scaling.initial n, Mat.zero r' n, Vec.identity n, Vec.zero n⟩, ?_⟩
    simp only [course, dif_neg h]
    exact ⟨rfl, .inr ⟨rfl, rfl⟩⟩

include hpat hl' in
/-- The two solves report the same, in different units, and leave the callbacks in states that
belong together. -/
theorem run_inStep :
    let out := run (Numerics.exact ε τ z) c patience p rows l x s
    let out' := run (Numerics.exact ε τ z) c patience q rows' l' (t.diagMul x) (g s)
    ∃ scale, out'.1.toSummary = out.1.toSummary.inUnits t scale ∧ out'.2 = g out.2 ∧
      (scale = out.1.scale.perUnit t ∨ scale = out.1.scale) := by
  intro out out'
  by_cases h : n ≤ m
  · rcases hc : c.fault? n with _ | e
    · have hset : c.toSettings.fault? n = none := Config.settings_fault? hc
      have hpos : 0 < c.budget patience n := Settings.budget_pos hset hpat
      have hbudget : (method (Numerics.exact ε τ z) c (c.budget patience n) (rows h) p
          (l h)).KeepsBudget (c.budget patience n) := keepsBudget_method (hl h)
      have hbudget' : (method (Numerics.exact ε τ z) c (c.budget patience n) (rows' h) q
          (l' h)).KeepsBudget (c.budget patience n) := keepsBudget_method (hl' h)
      -- where the one solve has ended, so has the other one, and there it ends
      obtain ⟨k, b, hk⟩ := hbudget.exists_course_ended (accepts (Numerics.exact ε τ z) (rows h)) p
        hpos (fun _ => rfl) (Numerics.exact ε τ z) c.toSettings x s
      obtain ⟨M, heq, hscale⟩ := exists_course_converted c rows rows' hl ht hpq hτ x s hlin k
      rw [course_eq h hc, course_eq h hc, hk] at heq
      rw [course_eq h hc, hk] at hscale
      have hsol := hbudget'.solve_of_course_ended hpos (fun _ => rfl) heq
      simp only [out, out', run_eq h hc, Method.run_eq, hsol]
      refine ⟨M.scale, rfl, ?_, hscale.imp_right And.left⟩
      -- the last report shows the same iterate
      split
      · exact congrArg Prod.snd (hpq.report _ _ _ _)
      · rfl
    · simp only [out, out', run, dif_pos h, hc]
      exact ⟨c.scaling.initial n, rfl, trivial, .inr rfl⟩
  · simp only [out, out', run, dif_neg h]
    exact ⟨c.scaling.initial n, rfl, trivial, .inr rfl⟩

end Run

end LeastSquares

end NonlinearSolve

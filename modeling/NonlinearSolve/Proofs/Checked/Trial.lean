import NonlinearSolve.LeastSquares.Trial
import NonlinearSolve.Proofs.Checked.Subproblem
import NonlinearSolve.Proofs.TrustRegion.Positivity

/-! # Checked trial steps

Adapting to a Jacobian, proposing a step and judging it, written with checked operations. The gain
of a step divides by the norm of the residuals, so that must not be zero; the factor by which the
trust region shrinks divides by a sum that is negative whenever it is needed. -/

namespace NonlinearSolve

namespace LeastSquares

open Scalar

/-! ### Algorithms -/

section Algorithms

variable {α : Type} [Scalar α] {m r n : Nat}

namespace State

/-- `gradientCosine` with checked operations. -/
def gradientCosine? (h : n ≤ r) (st : State α m r n) (norms : Vec α n) : Option α :=
  if st.residualNorm == 0 then some 0
  else
    Fin.foldlM n (fun g j =>
      let norm := norms (st.order j)
      if norm == 0 then some g
      else do
        let product ← sumWhere? (· ≤ j) fun i => do
          let q ← div? (st.rhs i) st.residualNorm
          return st.factor (i.castLE h) j * q
        let share ← div? product norm
        return maxNum g (mag share)) 0

/-- `adapt` with checked operations. -/
def adapt? (nm : Numerics α) (c : Config α) (h : n ≤ r) (st : State α m r n) (norms : Vec α n) :
    Option (Option Termination × State α m r n) := do
  let st := { st with toIterate := st.toIterate.calibrate nm c.toSettings norms }
  let cosine ← st.gradientCosine? h norms
  let st := { st with cosine }
  if st.cosine ≤ c.gtol then return (some .orthogonal, st)
  else return (none, { st with toIterate := st.toIterate.rescale c.toSettings norms })

/-- `propose` with checked operations. -/
def propose? (nm : Numerics α) (h : n ≤ r) (st : State α m r n) :
    Option (Proposal α n × State α m r n) := do
  let sol ← (st.subproblem h).solve? nm st.damping
  let (t, it) := st.toIterate.propose nm (sol.step.map fun p => -p)
  return (t, { st with
    toIterate := it
    factor := st.factor.withLeading sol.r
    damping := sol.damping })

end State

/-- `actualReduction` with checked operations. -/
def actualReduction? (norm norm1 : α) : Option α :=
  if 0.1 * norm1 < norm then do
    let q ← div? norm1 norm
    return 1 - square q
  else some (-1)

/-- `gain` with checked operations. -/
def State.gain? (nm : Numerics α) (h : n ≤ r) (st : State α m r n) (t : Proposal α n)
    (norm1 : α) : Option (Gain α) := do
  let actual ← actualReduction? st.residualNorm norm1
  let linear ← div? (nm.vecNorm (st.linearChange h t.step)) st.residualNorm
  let root ← sqrt? st.damping
  let damped ← div? (root * t.length) st.residualNorm
  let share ← div? (damped * damped) 0.5
  let predicted := linear * linear + share
  let ratio ← if predicted == 0 then some 0 else div? actual predicted
  return { actual, predicted, slope := -(linear * linear + damped * damped), ratio }

/-- `shrink` with checked operations. -/
def Gain.shrink? (g : Gain α) (norm norm1 : α) : Option α := do
  let t ← if 0 ≤ g.actual then some 0.5 else div? (0.5 * g.slope) (g.slope + 0.5 * g.actual)
  return if norm ≤ 0.1 * norm1 ∨ t < 0.1 then 0.1 else t

namespace State

/-- `resize` with checked operations. -/
def resize? (st : State α m r n) (g : Gain α) (length norm1 : α) : Option (State α m r n) :=
  if g.ratio ≤ 0.25 then do
    let t ← g.shrink? st.residualNorm norm1
    let bound ← div? length 0.1
    let damping ← div? st.damping t
    return { st with radius := t * minNum st.radius bound, damping }
  else if st.damping == 0 || 0.75 ≤ g.ratio then do
    let radius ← div? length 0.5
    return { st with radius, damping := st.damping * 0.5 }
  else some st

/-- `judge` with checked operations. -/
def judge? (nm : Numerics α) (c : Config α) (budget : Nat) (h : n ≤ r) (st : State α m r n)
    (t : Proposal α n) (residuals : Vec α m) : Option (Option Termination × State α m r n) := do
  let norm1 := nm.vecNorm residuals
  let g ← st.gain? nm h t norm1
  let st ← st.resize? g t.length norm1
  if g.acceptable then
    let it := st.toIterate.accept nm t.point residuals norm1
    let st := { st with toIterate := it, fresh := true }
    if nm.stopAtZero && st.residualNorm == 0 then return (some .residualsZero, st)
    else return (st.stop? nm c budget g, st)
  else
    let st := { st with fresh := false }
    return (st.stop? nm c budget g, st)

end State

end Algorithms

variable {m r n : Nat} {ε τ : ℝ} {z : Bool}

/-! ### The start of an iteration -/

/-- The cosine divides by norms that are not zero only. -/
@[simp] theorem State.gradientCosine?_eq (h : n ≤ r) (st : State ℝ m r n) (norms : Vec ℝ n) :
    st.gradientCosine? h norms = some (st.gradientCosine h norms) := by
  unfold gradientCosine? gradientCosine
  by_cases hres : st.residualNorm == 0
  · rw [if_pos hres, if_pos hres]
  · have hne := mt (Exact.beq_iff _ _).2 hres
    rw [if_neg hres, if_neg hres]
    refine foldlM_eq ?_ _
    intro g j
    by_cases hnorm : norms (st.order j) == 0
    · simp only [if_pos hnorm]
    · have hnorm_ne := mt (Exact.beq_iff _ _).2 hnorm
      simp only [if_neg hnorm, div?_eq _ hne, div?_eq _ hnorm_ne, sumWhere?_some,
        Option.bind_eq_bind, Option.bind_some, Option.pure_def]

/-- Adapting the scaling computes the largest cosine, whose divisors are tested for zero first. -/
@[simp] theorem State.adapt?_eq (nm : Numerics ℝ) (c : Config ℝ) (h : n ≤ r) (st : State ℝ m r n)
    (norms : Vec ℝ n) : st.adapt? nm c h norms = some (st.adapt nm c h norms) := by
  unfold adapt? adapt
  simp only [gradientCosine?_eq, Option.bind_eq_bind, Option.bind_some, Option.pure_def,
    ← apply_ite some]

/-! ### Proposals -/

/-- A posed subproblem is solved without an undefined operation, so a step is proposed. -/
theorem State.propose?_eq {eqs : NormalEquations n} {h : n ≤ r} {st : State ℝ m r n}
    (hposed : Subproblem.Posed eqs (st.subproblem h)) (hτ : 0 < τ) :
    st.propose? (Numerics.exact ε τ z) h = some (st.propose (Numerics.exact ε τ z) h) := by
  unfold propose? propose
  rw [hposed.solve?_eq hτ]
  rfl

/-! ### Verdicts -/

/-- The actual reduction divides by the norm of the residuals. -/
theorem actualReduction?_eq {norm : ℝ} (hnorm : norm ≠ 0) (norm1 : ℝ) :
    actualReduction? norm norm1 = some (actualReduction norm norm1) := by
  unfold actualReduction? actualReduction
  simp only [div?_eq _ hnorm, Option.bind_eq_bind, Option.bind_some, Option.pure_def,
    ← apply_ite some]

/-- The gain of a step is checked at residuals that are not zero: the predicted reduction is tested
for zero before it divides. -/
theorem State.gain?_eq (nm : Numerics ℝ) (h : n ≤ r) {st : State ℝ m r n}
    (hres : st.residualNorm ≠ 0) (hdamping : 0 ≤ st.damping) (t : Proposal ℝ n) (norm1 : ℝ) :
    st.gain? nm h t norm1 = some (st.gain nm h t norm1) := by
  have hhalf : (0.5 : ℝ) ≠ 0 := by norm_num
  unfold gain? gain
  simp only [actualReduction?_eq hres, div?_eq _ hres, sqrt?_eq hdamping, div?_eq _ hhalf,
    Option.bind_eq_bind, Option.bind_some, Option.pure_def]
  split
  · rfl
  · next hpred =>
    rw [div?_eq _ (mt (Exact.beq_iff _ _).2 hpred)]
    rfl

/-- The slope is never positive, as it is the negative of a sum of squares. -/
theorem State.slope_nonpos (nm : Numerics ℝ) (h : n ≤ r) (st : State ℝ m r n) (t : Proposal ℝ n)
    (norm1 : ℝ) : (st.gain nm h t norm1).slope ≤ 0 :=
  neg_nonpos.2 (add_nonneg (mul_self_nonneg _) (mul_self_nonneg _))

/-- The minimum of the parabola is asked for only if the sum of squares has grown. -/
theorem Gain.shrink?_eq {g : Gain ℝ} (hslope : g.slope ≤ 0) (norm norm1 : ℝ) :
    g.shrink? norm norm1 = some (g.shrink norm norm1) := by
  unfold shrink? shrink
  by_cases hactual : 0 ≤ g.actual
  · simp only [if_pos hactual, Option.bind_eq_bind, Option.bind_some, Option.pure_def]
  · have hne : g.slope + 0.5 * g.actual ≠ 0 := by
      have hneg := not_le.1 hactual
      norm_num
      linarith
    simp only [if_neg hactual, div?_eq _ hne, Option.bind_eq_bind, Option.bind_some,
      Option.pure_def]

/-- A slope that is not positive keeps the divisor of the shrinking factor away from zero. -/
theorem State.resize?_eq (st : State ℝ m r n) {g : Gain ℝ} (hslope : g.slope ≤ 0)
    (length norm1 : ℝ) : st.resize? g length norm1 = some (st.resize g length norm1) := by
  have htenth : (0.1 : ℝ) ≠ 0 := by norm_num
  have hhalf : (0.5 : ℝ) ≠ 0 := by norm_num
  have hshrink := (Iterate.Proper.shrink_pos g st.residualNorm norm1).ne'
  unfold resize? resize
  simp only [Gain.shrink?_eq hslope, div?_eq _ htenth, div?_eq _ hhalf, div?_eq _ hshrink,
    Option.bind_eq_bind, Option.bind_some, Option.pure_def, ← apply_ite some]

/-- Judging a step is checked at residuals that are not zero. -/
theorem State.judge?_eq (nm : Numerics ℝ) (c : Config ℝ) (budget : Nat) (h : n ≤ r)
    {st : State ℝ m r n} (hres : st.residualNorm ≠ 0) (hdamping : 0 ≤ st.damping)
    (t : Proposal ℝ n) (residuals : Vec ℝ m) :
    st.judge? nm c budget h t residuals = some (st.judge nm c budget h t residuals) := by
  have hslope := st.slope_nonpos nm h t (nm.vecNorm residuals)
  unfold judge? judge
  simp only [gain?_eq nm h hres hdamping, resize?_eq st hslope, Option.bind_eq_bind,
    Option.bind_some, Option.pure_def, ← apply_ite some]

end LeastSquares

end NonlinearSolve

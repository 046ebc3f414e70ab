import NonlinearSolve.Proofs.TrustRegion.Secular
import NonlinearSolve.Proofs.TrustRegion.Solution

/-! # The subproblem as a secular equation

In the units of the scaling the subproblem of a regular factor asks for the root of a secular
equation: if the Gauss-Newton step is too long, exactly one damping makes the scaled step as long as
the radius (`Subproblem.Regular.existsUnique_isRoot`). The numbers from which the search takes its
next damping are those of Newton's method for it. The lower end of the first bracket is a Newton
step from zero (`Subproblem.Regular.lowerEnd_eq`), and the correction at a probe is a Newton step
from there (`Subproblem.Regular.correction_eq`). -/

namespace NonlinearSolve

open Matrix Scalar NormalEquations Secular

variable {n : Nat} {ε τ : ℝ} {z : Bool}

/-! ### Shifted equations in other units -/

/-- Damping by a multiple of the units becomes a shift. -/
theorem NormalEquations.inUnits_shift_mulVec (eqs : NormalEquations n) {t : Vec ℝ n}
    (ht : ∀ i, t i ≠ 0) (l : ℝ) (x : Fin n → ℝ) :
    ((eqs.inUnits t.get).matrix + l • 1) *ᵥ (fun i => t i * x i) =
      fun i => ((eqs.matrix + l • diagonal t.get ^ 2) *ᵥ x) i / t i := by
  rw [shift_mulVec, inUnits_mulVec ht, add_mulVec, smul_mulVec, diagonal_pow]
  funext i
  have hi := ht i
  simp only [Pi.add_apply, Pi.smul_apply, smul_eq_mul, mulVec_diagonal, Pi.pow_apply, add_div]
  congr 1
  field_simp

namespace Subproblem

/-- A subproblem that is posed by a regular factor, with positive scaling factors and a positive
radius. -/
structure Regular (sp : Subproblem ℝ n) : Prop where
  bijective : Function.Bijective sp.order.get
  diag_ne_zero (j : Fin n) : sp.r j j ≠ 0
  scale_pos (i : Fin n) : 0 < sp.scale i
  radius_pos : 0 < sp.radius

/-- The normal equations in the units of the scaling. -/
noncomputable def scaledEquations (sp : Subproblem ℝ n) : NormalEquations n :=
  sp.normalEquations.inUnits sp.scale.get

/-- A solution at the damping `l` in the units of the scaling, with its rate. -/
abbrev PointAt (sp : Subproblem ℝ n) (l : ℝ) (w v : Fin n → ℝ) : Prop :=
  Point sp.scaledEquations.matrix sp.scaledEquations.rhs l w v

variable {sp : Subproblem ℝ n} {l L : ℝ} {v : Fin n → ℝ} {dx : Vec ℝ n}

/-- The scaled length is the length in scaled units. -/
theorem scaledLength_eq (sp : Subproblem ℝ n) (x : Fin n → ℝ) :
    sp.scaledLength x = length fun i => sp.scale i * x i := by
  rw [scaledLength, length, dotProduct]
  simp only [pow_two]

/-- In exact arithmetic the norm is the length. -/
theorem vecNorm_eq_length (v : Vec ℝ n) : (Numerics.exact ε τ z).vecNorm v = length v.get :=
  Numerics.vecNorm_eq_sqrt_dot ε τ z v

/-- The scaled length of the Gauss-Newton step. -/
theorem scaledLength_gaussNewton (sp : Subproblem ℝ n) :
    sp.scaledLength sp.gaussNewton.get = length (sp.scale.diagMul sp.gaussNewton).get := by
  rw [scaledLength_eq]
  congr 1
  funext i
  rw [Vec.diagMul_apply]

/-- The dampings that are searched for: with such a damping the solution is as long as the radius,
in the units of the scaling. -/
def IsRoot (sp : Subproblem ℝ n) (L : ℝ) : Prop :=
  0 < L ∧ ∃ x : Fin n → ℝ,
    (sp.normalEquations.matrix + L • diagonal sp.scale.get ^ 2) *ᵥ x = sp.normalEquations.rhs ∧
      sp.scaledLength x = sp.radius

namespace Regular

variable (h : Regular sp)

include h

/-- A positive scale factor may be divided by. -/
theorem scale_ne_zero (i : Fin n) : sp.scale i ≠ 0 := (h.scale_pos i).ne'

/-- The factor of the subproblem factors its normal equations. -/
theorem factored : sp.normalEquations.Factored sp.r.upper sp.order sp.rhs.get :=
  factored_normalEquations h.bijective

/-- A regular factor has no zero pivots. -/
theorem upper_ne_zero (j : Fin n) : sp.r.upper j j ≠ 0 := by
  rw [sp.r.upper_of_le le_rfl]
  exact h.diag_ne_zero j

/-- In the units of the scaling the matrix of a regular subproblem is positive definite. -/
theorem posDef : sp.scaledEquations.matrix.PosDef := by
  refine (h.factored.inUnits sp.scale.get).posDef ?_
  exact (h.factored.diag_ne_zero_inUnits (h.factored.inUnits sp.scale.get) h.scale_ne_zero).1
    h.upper_ne_zero

/-! ### The secular equation -/

/-- A solution with the damping `l` in the units of the scaling. -/
theorem shift_mulVec_eq_iff (l : ℝ) (x : Fin n → ℝ) :
    (sp.scaledEquations.matrix + l • 1) *ᵥ (fun i => sp.scale i * x i) = sp.scaledEquations.rhs ↔
      (sp.normalEquations.matrix + l • diagonal sp.scale.get ^ 2) *ᵥ x =
        sp.normalEquations.rhs := by
  rw [scaledEquations, inUnits_shift_mulVec _ h.scale_ne_zero, inUnits]
  constructor
  · intro heq
    funext i
    exact (div_left_inj' (h.scale_ne_zero i)).1 (congrFun heq i)
  · intro heq
    rw [heq]

/-- A solution of the damped equations is a point of the secular equation, in scaled units. -/
theorem exists_point_of_mulVec_eq (hl : 0 ≤ l) {x : Vec ℝ n}
    (hx : (sp.normalEquations.matrix + l • diagonal sp.scale.get ^ 2) *ᵥ x.get =
      sp.normalEquations.rhs) : ∃ v, PointAt sp l (sp.scale.diagMul x).get v := by
  have hsolves := (h.shift_mulVec_eq_iff l x.get).2 hx
  have hdx : (sp.scale.diagMul x).get = fun i => sp.scale i * x i :=
    funext fun i => Vec.diagMul_apply _ _ i
  obtain ⟨v, hv⟩ := mulVec_surjective_iff_isUnit.2 (posDef_shift h.posDef hl).isUnit
    (sp.scale.diagMul x).get
  rw [← hdx] at hsolves
  exact ⟨v, hl, hsolves, hv⟩

/-- A root is a damping whose point is as long as the radius. -/
theorem isRoot_iff :
    IsRoot sp L ↔ 0 < L ∧ ∃ w v, PointAt sp L w v ∧ length w = sp.radius := by
  refine and_congr_right ?_
  intro hL
  constructor
  · rintro ⟨x, hx, hlength⟩
    obtain ⟨v, hp⟩ := h.exists_point_of_mulVec_eq hL.le (x := Vec.of x) (by rwa [Vec.get_of])
    refine ⟨_, v, hp, ?_⟩
    rw [← hlength, scaledLength_eq]
    congr 1
    funext i
    rw [Vec.diagMul_apply, Vec.of_apply]
  · rintro ⟨w, v, hp, hlength⟩
    have hw : (fun i => sp.scale i * (w i / sp.scale i)) = w :=
      funext fun i => mul_div_cancel₀ _ (h.scale_ne_zero i)
    refine ⟨fun i => w i / sp.scale i, (h.shift_mulVec_eq_iff L _).1 ?_, ?_⟩
    · rw [hw]
      exact hp.solves
    · rw [scaledLength_eq, hw, hlength]

/-- The Gauss-Newton step is the solution without damping. -/
theorem exists_point_gaussNewton :
    ∃ v, PointAt sp 0 (sp.scale.diagMul sp.gaussNewton).get v := by
  have htapered : sp.r.Tapered :=
    Mat.tapered_of_firstZero (Vec.firstZero_eq_iff.2 fun j => by
      rw [Mat.diagonal_apply]
      exact h.diag_ne_zero j).ge
  refine h.exists_point_of_mulVec_eq le_rfl ?_
  rw [zero_smul, add_zero]
  exact mulVec_gaussNewton_of_tapered h.factored htapered

/-- If the Gauss-Newton step is too long, there is exactly one damping at which the step is as long
as the radius. -/
theorem existsUnique_isRoot (hlong : sp.radius < sp.scaledLength sp.gaussNewton.get) :
    ∃! L, IsRoot sp L := by
  obtain ⟨v, hp⟩ := h.exists_point_gaussNewton
  rw [scaledLength_gaussNewton] at hlong
  have hrhs := hp.rhs_ne_zero h.posDef (h.radius_pos.trans hlong)
  obtain ⟨L, hL, hpoint⟩ := exists_root h.posDef hp h.radius_pos hlong
  refine ⟨L, h.isRoot_iff.2 ⟨hL, hpoint⟩, ?_⟩
  intro L' hL'
  obtain ⟨w, v, hp, hlength⟩ := hpoint
  obtain ⟨-, w', v', hp', hlength'⟩ := h.isRoot_iff.1 hL'
  -- solutions of the same length have the same damping
  refine le_antisymm ?_ ?_
  · exact (hp'.length_le_iff h.posDef hp hrhs).1 (hlength.trans hlength'.symm).le
  · exact (hp.length_le_iff h.posDef hp' hrhs).1 (hlength'.trans hlength.symm).le

/-! ### Newton steps -/

/-- The length of the solution of a transposed system for a direction, with any factor of the
damped normal equations. -/
theorem dot_of_direction {eqs : NormalEquations n}
    (heqs : eqs.matrix = sp.normalEquations.matrix + l • diagonal sp.scale.get ^ 2)
    {r : Matrix (Fin n) (Fin n) ℝ} {b u : Fin n → ℝ} (hfactored : eqs.Factored r sp.order b)
    (hdiag : ∀ j, r j j ≠ 0) {norm : ℝ} (hu : rᵀ *ᵥ u = (sp.scaledDirection dx norm).get)
    (hv : (sp.scaledEquations.matrix + l • 1) *ᵥ v = dx.get) :
    u ⬝ᵥ u = v ⬝ᵥ dx.get / norm ^ 2 := by
  -- the rate belongs to the system in the units of the scaling
  have hscaled : (fun i => sp.scale i * (v i / sp.scale i / norm)) = norm⁻¹ • v := by
    funext i
    have hi := h.scale_ne_zero i
    rw [Pi.smul_apply, smul_eq_mul, mul_div_assoc', mul_div_cancel₀ _ hi, div_eq_inv_mul]
  have hrate := inUnits_shift_mulVec sp.normalEquations h.scale_ne_zero l
    fun i => v i / sp.scale i / norm
  rw [hscaled, ← scaledEquations, mulVec_smul, hv, ← heqs] at hrate
  have hsol : eqs.matrix *ᵥ (fun i => v i / sp.scale i / norm) =
      fun i => sp.scale i * (dx i / norm) := by
    funext i
    have hi := congrFun hrate i
    rw [eq_div_iff (h.scale_ne_zero i), Pi.smul_apply, smul_eq_mul] at hi
    rw [← hi]
    ring
  rw [scaledDirection_get] at hu
  rw [hfactored.dot_eq_of_transpose hdiag hu hsol, dotProduct, dotProduct, Finset.sum_div]
  refine Finset.sum_congr rfl ?_
  intro i _
  have hi := h.scale_ne_zero i
  field_simp

end Regular

/-- The quotient that the search computes with such a length. -/
theorem newton_quotient (e : ℝ) {q norm : ℝ} {u : Vec ℝ n} (hq : 0 ≤ q)
    (hu : u.get ⬝ᵥ u.get = q / norm ^ 2) :
    e / (Numerics.exact ε τ z).vecNorm u / (Numerics.exact ε τ z).vecNorm u =
      e * (norm ^ 2 / q) := by
  rw [div_div, Numerics.vecNorm_eq_sqrt_dot, hu,
    Real.mul_self_sqrt (div_nonneg hq (sq_nonneg norm)), div_div_eq_mul_div, mul_div_assoc]

namespace Regular

variable (h : Regular sp) (hrhs : sp.scaledEquations.rhs ≠ 0)

include h hrhs

/-- The lower end of the bracket is a Newton step from zero. -/
theorem lowerEnd_eq (hp : PointAt sp 0 dx.get v) (norm : ℝ) :
    sp.lowerEnd (Numerics.exact ε τ z) dx norm =
      (norm - sp.radius) / sp.radius * (norm ^ 2 / (v ⬝ᵥ dx.get)) := by
  have hz := transpose_mulVec_solveTransposed h.diag_ne_zero (sp.scaledDirection dx norm)
  have hdot := h.dot_of_direction (l := 0) (by rw [zero_smul, add_zero]) h.factored h.upper_ne_zero
    hz hp.rate
  rw [lowerEnd, if_pos (rank_eq_iff.2 h.upper_ne_zero)]
  exact newton_quotient _ (hp.rate_dot_pos h.posDef hrhs).le hdot

/-- The upper end of the bracket. -/
theorem upperEnd_eq :
    sp.upperEnd (Numerics.exact ε τ z) = length sp.scaledEquations.rhs / sp.radius := by
  have hgradient : sp.gradientNorm (Numerics.exact ε τ z) = length sp.scaledEquations.rhs :=
    gradientNorm_eq h.factored
  have hne : length sp.scaledEquations.rhs / sp.radius ≠ 0 :=
    (div_pos (length_pos hrhs) h.radius_pos).ne'
  rw [upperEnd, hgradient, if_neg (mt (Exact.beq_iff _ _).1 hne)]

end Regular

/-! ### Probes -/

/-- A damping that is not zero is probed as it is. -/
theorem probe_damping_of_ne_zero (sp : Subproblem ℝ n) (nm : Numerics ℝ) {b : Bracket ℝ}
    (hb : b.damping ≠ 0) : (sp.probe nm b).damping = b.damping := by
  rw [probe_damping, if_neg (mt (Exact.beq_iff _ _).1 hb)]

/-- The norm of a probe is the length of its scaled step. -/
theorem probe_norm_eq_length (sp : Subproblem ℝ n) (b : Bracket ℝ) :
    (sp.probe (Numerics.exact ε τ z) b).norm =
      length (sp.probe (Numerics.exact ε τ z) b).dx.get := by
  rw [probe_norm, vecNorm_eq_length]

namespace Regular

variable (h : Regular sp) (hτ : 0 < τ) {b : Bracket ℝ} (hb : b.Nonneg)

include h hτ hb

/-- A probe is a point of the secular equation at its damping. -/
theorem exists_point_probe : ∃ v, PointAt sp (sp.probe (Numerics.exact ε τ z) b).damping
    (sp.probe (Numerics.exact ε τ z) b).dx.get v :=
  h.exists_point_of_mulVec_eq (probe_damping_pos hτ sp hb).le
    (mulVec_probe h.factored h.scale_pos hτ hb)

/-- The correction at a probe leads to the next Newton iterate. -/
theorem correction_eq (hrhs : sp.scaledEquations.rhs ≠ 0)
    (hp : PointAt sp (sp.probe (Numerics.exact ε τ z) b).damping
      (sp.probe (Numerics.exact ε τ z) b).dx.get v) :
    sp.correction (Numerics.exact ε τ z) (sp.probe (Numerics.exact ε τ z) b) =
      (sp.probe (Numerics.exact ε τ z) b).excess / sp.radius *
        ((sp.probe (Numerics.exact ε τ z) b).norm ^ 2 /
          (v ⬝ᵥ (sp.probe (Numerics.exact ε τ z) b).dx.get)) := by
  have hpos := probe_damping_pos (ε := ε) (z := z) hτ sp hb
  have hdiag := factor_probe_ne_zero (ε := ε) (z := z) h.factored h.scale_pos hτ hb
  have hsubstitute := transpose_mulVec_probe (ε := ε) (z := z) h.factored h.scale_pos hτ hb
  have hsolution := probe_solution sp (Numerics.exact ε τ z) b
  set p := sp.probe (Numerics.exact ε τ z) b
  have hfactored := h.factored.dampedSolve (p.diag sp.scale)
  rw [← hsolution] at hfactored
  have hdot := h.dot_of_direction (sp.normalEquations.matrix_damped_smul hpos.le sp.scale)
    hfactored hdiag (hsubstitute (sp.scaledDirection p.dx p.norm)) hp.rate
  rw [correction]
  exact newton_quotient _ (hp.rate_dot_pos h.posDef hrhs).le hdot

end Regular

end Subproblem

end NonlinearSolve

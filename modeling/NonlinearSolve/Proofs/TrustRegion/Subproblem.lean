import NonlinearSolve.Proofs.Linear.DampedSystems
import NonlinearSolve.Proofs.Linear.Units

/-! # The subproblem depends on the normal equations

Two factorizations of the same Jacobian pose different trust region subproblems, but in exact
arithmetic their solutions are the same, also if the unknowns are measured in other units
(`Subproblem.Equivalent.solve_eq`): all that the search for the damping looks at is determined by
the normal equations and by the basis of the Gauss-Newton step, and none of it depends on the units.
The dampings that are probed are positive, so the damped systems are regular.

The probes of a search work one after the other in the matrix of the triangular factor, but each of
them leaves the factor itself alone, so a search goes on as if nothing had been written
(`Subproblem.search_succ`). -/

namespace NonlinearSolve

open Matrix Scalar NormalEquations

variable {n : Nat} {eqs : NormalEquations n}

/-- The norm of a vector is the root of its scalar product with itself. -/
theorem Numerics.vecNorm_eq_sqrt_dot (ε τ : ℝ) (z : Bool) (v : Vec ℝ n) :
    (exact ε τ z).vecNorm v = √(v.get ⬝ᵥ v.get) := by
  rw [vecNorm_exact, dotProduct]
  simp only [pow_two]

namespace Subproblem

/-! ### What a probe leaves -/

section Search

variable {α : Type} [Scalar α] (sp : Subproblem α n) (nm : Numerics α) (b : Bracket α)

/-- A probe leaves the factor as it is, on and above the diagonal. -/
theorem sameUpper_probe : sp.r.SameUpper (sp.probe nm b).solution.r :=
  fun _ _ hij => (dampedSolve_r_of_le sp.r sp.order _ sp.rhs hij).symm

variable {sp} {r : Mat α n n} (h : sp.r.SameUpper r)

include h

/-- A probe only reads the upper triangle. -/
theorem probe_congr : { sp with r }.probe nm b = sp.probe nm b := by
  rw [probe, probe]
  simp only [dampedSolve_congr h]

/-- The search only reads the upper triangle. -/
theorem search_congr (k : Nat) : { sp with r }.search nm k b = sp.search nm k b := by
  cases k with
  | zero => exact probe_congr nm b h
  | succ k =>
    rw [search, search, probe_congr nm b h]
    rfl

omit h

/-- So the next probe could as well begin with the given factor. -/
theorem search_succ (sp : Subproblem α n) (k : Nat) :
    sp.search nm (k + 1) b =
      if sp.accepts b (sp.probe nm b) then sp.probe nm b
      else sp.search nm k (sp.refine nm b (sp.probe nm b)) := by
  rw [search]
  simp only [search_congr nm _ (sameUpper_probe sp nm b)]

/-- A search leaves the factor as it is, on and above the diagonal. -/
theorem sameUpper_search (sp : Subproblem α n) (k : Nat) :
    sp.r.SameUpper (sp.search nm k b).solution.r := by
  induction k generalizing b with
  | zero => exact sameUpper_probe sp nm b
  | succ k ih =>
    rw [search_succ]
    split
    · exact sameUpper_probe sp nm b
    · exact ih _

/-- So does the solution of the subproblem, with a search or without. -/
theorem sameUpper_solve (sp : Subproblem α n) (estimate : α) :
    sp.r.SameUpper (sp.solve nm estimate).r := by
  rw [solve]
  split
  · exact .refl _
  · exact sameUpper_search nm _ sp _

end Search

/-! ### Equivalent subproblems -/

/-- Two subproblems are equivalent if they are posed by factors of the same normal equations with
the same basis, with the same scaling and the same radius, the second one in units in which the
unknown `i` has a value `t i` times as large. -/
structure Equivalent (t : Vec ℝ n) (eqs : NormalEquations n) (sp sp' : Subproblem ℝ n) : Prop where
  unit_ne_zero (i : Fin n) : t i ≠ 0
  left : eqs.Factored sp.r.upper sp.order sp.rhs.get
  right : (eqs.inUnits t.get).Factored sp'.r.upper sp'.order sp'.rhs.get
  basis_eq : basis sp.order sp.rank = basis sp'.order sp'.rank
  scale_eq : sp'.scale = sp.scale.perUnit t
  radius_eq : sp.radius = sp'.radius

variable {ε τ : ℝ} {z : Bool} {t : Vec ℝ n} {sp sp' : Subproblem ℝ n}

/-! ### The Gauss-Newton step -/

/-- The Gauss-Newton step is a basic solution of the normal equations. -/
theorem solves_gaussNewton (h : eqs.Factored sp.r.upper sp.order sp.rhs.get) :
    eqs.Solves (basis sp.order sp.rank) sp.gaussNewton.get :=
  h.solves_of_leading (fun j => (mulVec_gaussNewton h.bijective j).1)
    fun j => (mulVec_gaussNewton h.bijective j).2

/-- The pivots before the rank are not zero. -/
theorem upper_ne_zero_of_lt_rank {j : Fin n} (hj : j.val < sp.rank) : sp.r.upper j j ≠ 0 := by
  rw [sp.r.upper_of_le le_rfl]
  exact Mat.ne_zero_of_lt_firstZero hj

/-- The Gauss-Newton steps are the same, in the units of each. -/
theorem Equivalent.gaussNewton_eq (h : Equivalent t eqs sp sp') :
    sp'.gaussNewton = t.diagMul sp.gaussNewton := by
  have hsolves := (solves_gaussNewton h.left).inUnits h.unit_ne_zero
  rw [h.basis_eq] at hsolves
  have hget := h.right.solves_unique (fun j => upper_ne_zero_of_lt_rank)
    (solves_gaussNewton h.right) hsolves
  ext i
  rw [Vec.diagMul_apply]
  exact congrFun hget i

/-! ### The bracket -/

/-- The rank is full exactly if no pivot is zero. -/
theorem rank_eq_iff : sp.rank = n ↔ ∀ j, sp.r.upper j j ≠ 0 := by
  rw [rank, Vec.firstZero_eq_iff]
  simp only [Mat.diagonal_apply, sp.r.upper_of_le le_rfl]

/-- Both have full rank or neither has. -/
theorem Equivalent.rank_eq (h : Equivalent t eqs sp sp') : sp.rank = n ↔ sp'.rank = n := by
  rw [rank_eq_iff, rank_eq_iff]
  exact h.left.diag_ne_zero_inUnits h.right h.unit_ne_zero

/-- In the order of the unknowns the scaled direction does not depend on the factor. -/
theorem scaledDirection_get (sp : Subproblem ℝ n) (dx : Vec ℝ n) (norm : ℝ) :
    (sp.scaledDirection dx norm).get = (fun i => sp.scale i * (dx i / norm)) ∘ sp.order.get := by
  rw [scaledDirection, Vec.get_of]
  rfl

/-- The scaled direction of one in terms of the scaling of the other. -/
theorem Equivalent.scaledDirection_get (h : Equivalent t eqs sp sp') (dx : Vec ℝ n) (norm : ℝ) :
    (sp'.scaledDirection dx norm).get =
      (fun i => sp.scale i * (dx i / norm) / t i) ∘ sp'.order.get := by
  rw [Subproblem.scaledDirection_get, h.scale_eq]
  funext j
  rw [Function.comp_apply, Vec.perUnit_apply]
  exact div_mul_eq_mul_div _ _ _

/-- The lower ends of the brackets are the same. -/
theorem Equivalent.lowerEnd_eq (h : Equivalent t eqs sp sp') (dx : Vec ℝ n) (norm : ℝ) :
    sp.lowerEnd (Numerics.exact ε τ z) dx norm = sp'.lowerEnd (Numerics.exact ε τ z) dx norm := by
  rw [lowerEnd, lowerEnd]
  by_cases hrank : sp.rank = n
  · have hne := rank_eq_iff.1 hrank
    have hne' := rank_eq_iff.1 (h.rank_eq.1 hrank)
    have hdiag : ∀ j, sp.r j j ≠ 0 := fun j => sp.r.upper_of_le (le_refl j) ▸ hne j
    have hdiag' : ∀ j, sp'.r j j ≠ 0 := fun j => sp'.r.upper_of_le (le_refl j) ▸ hne' j
    -- both vectors solve a transposed system whose right hand side is the same direction, reordered
    have hz := transpose_mulVec_solveTransposed hdiag (sp.scaledDirection dx norm)
    have hz' := transpose_mulVec_solveTransposed hdiag' (sp'.scaledDirection dx norm)
    rw [Subproblem.scaledDirection_get] at hz
    rw [h.scaledDirection_get] at hz'
    have hdot := h.left.dot_eq_dot_of_transpose_inUnits h.right h.unit_ne_zero hne hz hz'
    have hnorm : (Numerics.exact ε τ z).vecNorm
        (solveTransposed sp.r (sp.scaledDirection dx norm)) =
        (Numerics.exact ε τ z).vecNorm
          (solveTransposed sp'.r (sp'.scaledDirection dx norm)) := by
      rw [Numerics.vecNorm_eq_sqrt_dot, Numerics.vecNorm_eq_sqrt_dot, hdot]
    simp only [if_pos hrank, if_pos (h.rank_eq.1 hrank), hnorm, h.radius_eq]
  · -- for a singular factor both ends are zero
    rw [if_neg hrank, if_neg (mt h.rank_eq.2 hrank)]

/-- The sum over the upper part of a column, as it occurs in gradients. -/
theorem sumWhere_upper (r : Mat ℝ n n) (b : Fin n → ℝ) (j : Fin n) :
    sumWhere (· ≤ j) (fun i => r i j * b i) = (r.upperᵀ *ᵥ b) j := by
  rw [Exact.sumWhere_eq]
  change _ = ∑ i, r.upper i j * b i
  refine Finset.sum_congr rfl ?_
  intro i _
  by_cases hij : i ≤ j
  · rw [if_pos hij, r.upper_of_le hij]
  · rw [if_neg hij, r.upper_of_lt (not_le.1 hij), zero_mul]

/-- The norm of the scaled gradient depends on the normal equations only. -/
theorem gradientNorm_eq (h : eqs.Factored sp.r.upper sp.order sp.rhs.get) :
    sp.gradientNorm (Numerics.exact ε τ z) =
      √((fun i => eqs.rhs i / sp.scale i) ⬝ᵥ fun i => eqs.rhs i / sp.scale i) := by
  have hentries : (Vec.of fun j => sumWhere (· ≤ j) (fun i => sp.r i j * sp.rhs i) /
      sp.scale (sp.order j)).get = (fun i => eqs.rhs i / sp.scale i) ∘ sp.order.get := by
    funext j
    rw [Vec.of_apply, sumWhere_upper, h.gradient]
    rfl
  rw [gradientNorm, Numerics.vecNorm_eq_sqrt_dot, hentries, h.dotProduct_comp]

/-- The norms of the scaled gradients are the same. -/
theorem Equivalent.gradientNorm_eq (h : Equivalent t eqs sp sp') :
    sp.gradientNorm (Numerics.exact ε τ z) = sp'.gradientNorm (Numerics.exact ε τ z) := by
  have hentries : (fun i => (eqs.inUnits t.get).rhs i / sp'.scale i) =
      fun i => eqs.rhs i / sp.scale i := by
    funext i
    rw [h.scale_eq, Vec.perUnit_apply]
    exact div_div_div_cancel_right₀ (h.unit_ne_zero i) _ _
  rw [Subproblem.gradientNorm_eq h.left, Subproblem.gradientNorm_eq h.right, hentries]

/-- The upper ends of the brackets are the same. -/
theorem Equivalent.upperEnd_eq (h : Equivalent t eqs sp sp') :
    sp.upperEnd (Numerics.exact ε τ z) = sp'.upperEnd (Numerics.exact ε τ z) := by
  rw [upperEnd, upperEnd, h.gradientNorm_eq, h.radius_eq]

/-- The brackets are the same. -/
theorem Equivalent.bracket_eq (h : Equivalent t eqs sp sp') (estimate : ℝ) (dx : Vec ℝ n)
    (norm : ℝ) :
    sp.bracket (Numerics.exact ε τ z) estimate dx norm =
      sp'.bracket (Numerics.exact ε τ z) estimate dx norm := by
  rw [bracket, bracket, h.lowerEnd_eq, h.upperEnd_eq, h.gradientNorm_eq, h.radius_eq]

/-! ### Probes -/

/-- A bracket from which only positive dampings are probed. -/
structure Bracket.Nonneg (b : Bracket ℝ) : Prop where
  damping : 0 ≤ b.damping
  lower : 0 ≤ b.lower

/-- Two probes agree in all but the factor of the damped system, the second one being in the units
`t`. -/
structure Probe.Agree (t : Vec ℝ n) (p p' : Probe ℝ n) : Prop where
  damping : p.damping = p'.damping
  x : p'.solution.x = t.diagMul p.solution.x
  dx : p.dx = p'.dx
  norm : p.norm = p'.norm
  excess : p.excess = p'.excess

/-- What is probed depends on the bracket only. -/
theorem probe_damping (sp : Subproblem ℝ n) (nm : Numerics ℝ) (b : Bracket ℝ) :
    (sp.probe nm b).damping =
      if b.damping == 0 then maxNum nm.tiny (0.001 * b.upper) else b.damping := rfl

/-- The scaled step of a probe is its solution in scaled units. -/
theorem probe_dx (sp : Subproblem ℝ n) (nm : Numerics ℝ) (b : Bracket ℝ) :
    (sp.probe nm b).dx = sp.scale.diagMul (sp.probe nm b).solution.x := rfl

/-- The norm of a probe is that of its scaled step. -/
theorem probe_norm (sp : Subproblem ℝ n) (nm : Numerics ℝ) (b : Bracket ℝ) :
    (sp.probe nm b).norm = nm.vecNorm (sp.probe nm b).dx := rfl

/-- The excess of a probe is by how much it is longer than the radius. -/
theorem probe_excess (sp : Subproblem ℝ n) (nm : Numerics ℝ) (b : Bracket ℝ) :
    (sp.probe nm b).excess = (sp.probe nm b).norm - sp.radius := rfl

/-- A damping of zero is replaced, so every probe is damped. -/
theorem probe_damping_pos (hτ : 0 < τ) (sp : Subproblem ℝ n) {b : Bracket ℝ} (hb : b.Nonneg) :
    0 < (sp.probe (Numerics.exact ε τ z) b).damping := by
  rw [probe_damping]
  by_cases hzero : b.damping = 0
  · rw [if_pos ((Exact.beq_iff _ _).2 hzero), Exact.maxNum_eq]
    exact lt_max_of_lt_left hτ
  · rw [if_neg (mt (Exact.beq_iff _ _).1 hzero)]
    exact lt_of_le_of_ne hb.damping (Ne.symm hzero)

/-- The diagonal of the damping at a probe. -/
noncomputable def Probe.diag (p : Probe ℝ n) (scale : Vec ℝ n) : Vec ℝ n :=
  scale.map (√p.damping * ·)

/-- The diagonal that a probe adds has no zeros. -/
theorem Probe.diag_ne_zero {p : Probe ℝ n} (hp : 0 < p.damping) {scale : Vec ℝ n}
    (hscale : ∀ i, 0 < scale i) (i : Fin n) : p.diag scale i ≠ 0 := by
  rw [diag, Vec.map_apply]
  exact (mul_pos (Real.sqrt_pos.2 hp) (hscale i)).ne'

/-- The solution at a probe is that of the system damped by the diagonal of the probe. -/
theorem probe_solution (sp : Subproblem ℝ n) (nm : Numerics ℝ) (b : Bracket ℝ) :
    (sp.probe nm b).solution =
      dampedSolve sp.r sp.order ((sp.probe nm b).diag sp.scale) sp.rhs := rfl

section Factor

variable (h : eqs.Factored sp.r.upper sp.order sp.rhs.get) (hscale : ∀ i, 0 < sp.scale i)
  (hτ : 0 < τ) {b : Bracket ℝ} (hb : b.Nonneg)

include h hscale hτ hb

/-- The factor of the damped system at a probe has no zero on the diagonal. -/
theorem factor_probe_ne_zero (j : Fin n) :
    factor (sp.probe (Numerics.exact ε τ z) b).solution j j ≠ 0 :=
  h.diag_ne_zero_of_damped (Probe.diag_ne_zero (probe_damping_pos hτ sp hb) hscale)
    (h.dampedSolve _) j

/-- So substitution solves the transposed system of a probe. -/
theorem transpose_mulVec_probe (w : Vec ℝ n) :
    (factor (sp.probe (Numerics.exact ε τ z) b).solution)ᵀ *ᵥ
      (Fin.foldl n (substituteLower (sp.probe (Numerics.exact ε τ z) b).solution) w).get =
        w.get := by
  refine transpose_mulVec_substituteLower ?_ w
  intro j
  rw [← factor_self]
  exact factor_probe_ne_zero h hscale hτ hb j

end Factor

/-- The diagonals of the damping differ by the units. -/
theorem Equivalent.probe_diag (h : Equivalent t eqs sp sp') {p p' : Probe ℝ n}
    (hdamping : p.damping = p'.damping) (i : Fin n) :
    p'.diag sp'.scale i = p.diag sp.scale i / t i := by
  rw [Probe.diag, Probe.diag, Vec.map_apply, Vec.map_apply, h.scale_eq, Vec.perUnit_apply, hdamping]
  exact (mul_div_assoc _ _ _).symm

/-- So the damped equations differ by the units. -/
theorem Equivalent.damped_eq (h : Equivalent t eqs sp sp') {p p' : Probe ℝ n}
    (hdamping : p.damping = p'.damping) :
    (eqs.inUnits t.get).damped (p'.diag sp'.scale).get =
      (eqs.damped (p.diag sp.scale).get).inUnits t.get := by
  rw [damped_inUnits]
  exact congrArg _ (funext (h.probe_diag hdamping))

section Probes

variable (h : Equivalent t eqs sp sp') (hscale : ∀ i, 0 < sp.scale i) (hτ : 0 < τ) {b : Bracket ℝ}
  (hb : b.Nonneg)

include h hscale hτ hb

/-- At probes of equivalent subproblems the solutions are the same, in different units. -/
theorem Equivalent.probe_x :
    (sp'.probe (Numerics.exact ε τ z) b).solution.x =
      t.diagMul (sp.probe (Numerics.exact ε τ z) b).solution.x := by
  have hpos := probe_damping_pos (ε := ε) (z := z) hτ sp hb
  have hdamping : (sp.probe (Numerics.exact ε τ z) b).damping =
      (sp'.probe (Numerics.exact ε τ z) b).damping := by
    rw [probe_damping, probe_damping]
  rw [probe_solution, probe_solution]
  set p := sp.probe (Numerics.exact ε τ z) b
  set p' := sp'.probe (Numerics.exact ε τ z) b
  have hne : ∀ i, p.diag sp.scale i ≠ 0 := Probe.diag_ne_zero hpos hscale
  have hne' : ∀ i, p'.diag sp'.scale i ≠ 0 := by
    intro i
    rw [h.probe_diag hdamping]
    exact div_ne_zero (hne i) (h.unit_ne_zero i)
  have hsolves := mulVec_inUnits_eq h.unit_ne_zero (solves_dampedSolve h.left hne)
  have hsolves' := solves_dampedSolve h.right hne'
  have hfactored := h.right.dampedSolve (p'.diag sp'.scale)
  rw [← h.damped_eq hdamping] at hsolves
  -- damped normal equations have one solution only
  have hget := hfactored.eq_of_mulVec_eq (h.right.diag_ne_zero_of_damped hne' hfactored) hsolves'
    hsolves
  ext i
  rw [Vec.diagMul_apply]
  exact congrFun hget i

/-- Probes of equivalent subproblems agree. -/
theorem Equivalent.probe_agree :
    (sp.probe (Numerics.exact ε τ z) b).Agree t (sp'.probe (Numerics.exact ε τ z) b) := by
  have hdamping : (sp.probe (Numerics.exact ε τ z) b).damping =
      (sp'.probe (Numerics.exact ε τ z) b).damping := by
    rw [probe_damping, probe_damping]
  have hx := h.probe_x (ε := ε) (z := z) hscale hτ hb
  have hdx : (sp.probe (Numerics.exact ε τ z) b).dx = (sp'.probe (Numerics.exact ε τ z) b).dx := by
    rw [probe_dx, probe_dx, hx, h.scale_eq, Vec.perUnit_diagMul_diagMul _ _ h.unit_ne_zero]
  have hnorm : (sp.probe (Numerics.exact ε τ z) b).norm =
      (sp'.probe (Numerics.exact ε τ z) b).norm := by
    rw [probe_norm, probe_norm, hdx]
  refine ⟨hdamping, hx, hdx, hnorm, ?_⟩
  rw [probe_excess, probe_excess, hnorm, h.radius_eq]

/-- The corrections at probes of equivalent subproblems are the same. -/
theorem Equivalent.correction_eq :
    sp.correction (Numerics.exact ε τ z) (sp.probe (Numerics.exact ε τ z) b) =
      sp'.correction (Numerics.exact ε τ z) (sp'.probe (Numerics.exact ε τ z) b) := by
  have hagree := h.probe_agree (ε := ε) (z := z) hscale hτ hb
  have hdiag := factor_probe_ne_zero (ε := ε) (z := z) h.left hscale hτ hb
  have hsubstitute := transpose_mulVec_probe (ε := ε) (z := z) h.left hscale hτ hb
  have hsolution := probe_solution sp (Numerics.exact ε τ z) b
  have hsolution' := probe_solution sp' (Numerics.exact ε τ z) b
  set p := sp.probe (Numerics.exact ε τ z) b
  set p' := sp'.probe (Numerics.exact ε τ z) b
  have hfactored := h.left.dampedSolve (p.diag sp.scale)
  have hfactored' := h.right.dampedSolve (p'.diag sp'.scale)
  rw [← hsolution] at hfactored
  rw [← hsolution', h.damped_eq hagree.damping] at hfactored'
  have hdiag' := (hfactored.diag_ne_zero_inUnits hfactored' h.unit_ne_zero).1 hdiag
  -- as for the lower end, the two factors of the damped equations solve for the same direction
  have hz := hsubstitute (sp.scaledDirection p.dx p.norm)
  have hz' := transpose_mulVec_substituteLower (fun j => factor_self p'.solution j ▸ hdiag' j)
    (sp'.scaledDirection p'.dx p'.norm)
  rw [Subproblem.scaledDirection_get] at hz
  rw [h.scaledDirection_get, ← hagree.dx, ← hagree.norm] at hz'
  have hdot := hfactored.dot_eq_dot_of_transpose_inUnits hfactored' h.unit_ne_zero hdiag hz hz'
  rw [correction, correction, Numerics.vecNorm_eq_sqrt_dot, Numerics.vecNorm_eq_sqrt_dot,
    hagree.excess, h.radius_eq, hdot, hagree.dx, hagree.norm]

/-- The search goes on in the same way. -/
theorem Equivalent.refine_eq :
    sp.refine (Numerics.exact ε τ z) b (sp.probe (Numerics.exact ε τ z) b) =
      sp'.refine (Numerics.exact ε τ z) b (sp'.probe (Numerics.exact ε τ z) b) := by
  have hagree := h.probe_agree (ε := ε) (z := z) hscale hτ hb
  rw [refine, refine, h.correction_eq hscale hτ hb, hagree.excess, hagree.damping]

end Probes

/-! ### Refinements -/

section Refinements

variable (sp) (nm : Numerics ℝ) (b : Bracket ℝ) (p : Probe ℝ n)

/-- A probe that is too long raises the lower end. -/
theorem refine_lower : (sp.refine nm b p).lower =
    if 0 < p.excess then max b.lower p.damping else b.lower := by
  rw [refine, Exact.maxNum_eq b.lower]

/-- A probe that is too short lowers the upper end. -/
theorem refine_upper : (sp.refine nm b p).upper =
    if p.excess < 0 then min b.upper p.damping else b.upper := by
  rw [refine, Exact.minNum_eq]

/-- The next damping is the corrected one, unless that is below the lower end. -/
theorem refine_damping : (sp.refine nm b p).damping =
    max (sp.refine nm b p).lower (p.damping + sp.correction nm p) := by
  rw [refine, Exact.maxNum_eq (if 0 < p.excess then _ else _)]

/-- The lower end never falls. -/
theorem le_refine_lower : b.lower ≤ (sp.refine nm b p).lower := by
  rw [refine_lower]
  split
  · exact le_max_left _ _
  · exact le_rfl

/-- The next damping is not below the lower end. -/
theorem refine_lower_le_damping : (sp.refine nm b p).lower ≤ (sp.refine nm b p).damping := by
  rw [refine_damping]
  exact le_max_left _ _

variable {sp nm b} in
/-- Nothing becomes negative in a bracket. -/
theorem Bracket.Nonneg.refine (hb : b.Nonneg) : (sp.refine nm b p).Nonneg := by
  have hlower := hb.lower.trans (le_refine_lower sp nm b p)
  exact ⟨hlower.trans (refine_lower_le_damping sp nm b p), hlower⟩

end Refinements

/-- Searches from the same bracket end with probes that agree. -/
theorem Equivalent.search_agree (h : Equivalent t eqs sp sp') (hscale : ∀ i, 0 < sp.scale i)
    (hτ : 0 < τ) (k : Nat) {b : Bracket ℝ} (hb : b.Nonneg) :
    (sp.search (Numerics.exact ε τ z) k b).Agree t (sp'.search (Numerics.exact ε τ z) k b) := by
  -- the number of probes left is generalized over the bracket, which every probe refines
  induction k generalizing b with
  | zero => exact h.probe_agree hscale hτ hb
  | succ k ih =>
    have hagree := h.probe_agree (ε := ε) (z := z) hscale hτ hb
    have haccepts : sp'.accepts b (sp'.probe (Numerics.exact ε τ z) b) =
        sp.accepts b (sp.probe (Numerics.exact ε τ z) b) := by
      rw [accepts, accepts, hagree.excess, h.radius_eq]
    rw [search_succ, search_succ]
    simp only [haccepts, ← h.refine_eq (ε := ε) (z := z) hscale hτ hb]
    split
    · exact hagree
    · exact ih (hb.refine _)

/-! ### The solution -/

/-- The lower end is not negative, because the Gauss-Newton step is longer than the radius. -/
theorem lowerEnd_nonneg (sp : Subproblem ℝ n) (dx : Vec ℝ n) {norm : ℝ} (hradius : 0 ≤ sp.radius)
    (hlong : sp.radius ≤ norm) : 0 ≤ sp.lowerEnd (Numerics.exact ε τ z) dx norm := by
  rw [lowerEnd]
  split
  · have ht : 0 ≤ (Numerics.exact ε τ z).vecNorm
        (solveTransposed sp.r (sp.scaledDirection dx norm)) := Numerics.vecNorm_exact_nonneg ε τ z _
    exact div_nonneg (div_nonneg (div_nonneg (sub_nonneg.2 hlong) hradius) ht) ht
  · exact le_rfl

/-- The upper end is not negative. -/
theorem upperEnd_nonneg (hτ : 0 < τ) (sp : Subproblem ℝ n) (hradius : 0 ≤ sp.radius) :
    0 ≤ sp.upperEnd (Numerics.exact ε τ z) := by
  rw [upperEnd]
  split
  · rw [Exact.minNum_eq]
    exact div_nonneg hτ.le (le_min hradius (by norm_num))
  · exact div_nonneg (Numerics.vecNorm_exact_nonneg ε τ z _) hradius

/-- A step that is too long to be accepted is longer than the radius. -/
theorem radius_le_of_long (hradius : 0 ≤ sp.radius) {norm : ℝ}
    (hlong : ¬ norm - sp.radius ≤ 0.1 * sp.radius) : sp.radius ≤ norm := by
  have htenth : (0 : ℝ) ≤ 0.1 * sp.radius := mul_nonneg (by norm_num) hradius
  have hlt := not_le.1 hlong
  linarith

/-- A search begins with a bracket that is not negative, if the given step is too long. -/
theorem nonneg_bracket (hτ : 0 < τ) (sp : Subproblem ℝ n) (estimate : ℝ) (dx : Vec ℝ n) {norm : ℝ}
    (hradius : 0 ≤ sp.radius) (hlong : sp.radius ≤ norm) :
    (sp.bracket (Numerics.exact ε τ z) estimate dx norm).Nonneg := by
  have hlower := sp.lowerEnd_nonneg (ε := ε) (τ := τ) (z := z) dx hradius hlong
  have hupper := sp.upperEnd_nonneg (ε := ε) (z := z) hτ hradius
  refine ⟨?_, hlower⟩
  rw [bracket]
  simp only
  split
  · exact div_nonneg (Numerics.vecNorm_exact_nonneg ε τ z _) (hradius.trans hlong)
  · rw [Exact.minNum_eq, Exact.maxNum_eq]
    exact le_min (le_max_of_le_right hlower) hupper

/-- Equivalent subproblems have the same solution, in different units, with the same damping. -/
theorem Equivalent.solve_eq (h : Equivalent t eqs sp sp') (hscale : ∀ i, 0 < sp.scale i)
    (hradius : 0 ≤ sp.radius) (hτ : 0 < τ) (estimate : ℝ) :
    (sp'.solve (Numerics.exact ε τ z) estimate).step =
        t.diagMul (sp.solve (Numerics.exact ε τ z) estimate).step ∧
      (sp.solve (Numerics.exact ε τ z) estimate).damping =
        (sp'.solve (Numerics.exact ε τ z) estimate).damping := by
  have hdx : sp'.scale.diagMul sp'.gaussNewton = sp.scale.diagMul sp.gaussNewton := by
    rw [h.scale_eq, h.gaussNewton_eq, Vec.perUnit_diagMul_diagMul _ _ h.unit_ne_zero]
  rw [solve, solve, hdx, ← h.radius_eq]
  simp only
  split
  · -- the Gauss-Newton step is short enough
    exact ⟨h.gaussNewton_eq, rfl⟩
  · next hlong =>
    have hbracket := nonneg_bracket (ε := ε) (z := z) hτ sp estimate
      (sp.scale.diagMul sp.gaussNewton) hradius (radius_le_of_long hradius hlong)
    have hagree := h.search_agree (ε := ε) (z := z) hscale hτ 9 hbracket
    rw [← h.bracket_eq]
    exact ⟨hagree.x, hagree.damping⟩

end Subproblem

end NonlinearSolve

import Mathlib.Analysis.SpecialFunctions.Sqrt
import NonlinearSolve.Proofs.Checked.Rotations
import NonlinearSolve.Proofs.TrustRegion.Steps

/-! # The checked subproblem

The search for the damping written with checked operations. Most of its divisions are not guarded:
they are by the radius, the scaling factors, the length of a step or the length of the solution of a
transposed system. If the subproblem is posed with a gradient that is not zero
(`Subproblem.Posed`), then none of these is zero, and the search comes to an end
(`Subproblem.Posed.solve?_eq`). -/

namespace NonlinearSolve

open Scalar

namespace Subproblem

/-! ### Algorithms -/

section Algorithms

variable {α : Type} [Scalar α] {n : Nat}

/-- `substitute` with checked operations. -/
def substitute? (r : Mat α n n) (j : Fin n) (w : Vec α n) : Option (Vec α n) := do
  let t ← div? (w j) (r j j)
  return Vec.of fun i => if i = j then t else if i < j then w i - r i j * t else w i

/-- `gaussNewton` with checked operations. -/
def gaussNewton? (sp : Subproblem α n) : Option (Vec α n) := do
  let w := Vec.of fun j => if j.val < sp.rank then sp.rhs j else 0
  let w ← Fin.foldrM n (fun j w => if j.val < sp.rank then substitute? sp.r j w else some w) w
  return Vec.scatter sp.order w

/-- `scaledDirection` with checked operations. -/
def scaledDirection? (sp : Subproblem α n) (dx : Vec α n) (norm : α) : Option (Vec α n) :=
  Vec.of? fun j => do
    let t ← div? (dx (sp.order j)) norm
    return sp.scale (sp.order j) * t

/-- `solveTransposed` with checked operations. -/
def solveTransposed? (r : Mat α n n) (w : Vec α n) : Option (Vec α n) :=
  Fin.foldlM n (fun z j => do
    let t ← div? (z j - sumWhere (· < j) (fun i => r i j * z i)) (r j j)
    return z.set j t) w

/-- The excess in units of the radius, divided by the square of the length `t`. -/
def newtonQuotient? (sp : Subproblem α n) (excess t : α) : Option α := do
  let q ← div? excess sp.radius
  let q ← div? q t
  div? q t

/-- `lowerEnd` with checked operations. -/
def lowerEnd? (sp : Subproblem α n) (nm : Numerics α) (dx : Vec α n) (norm : α) : Option α :=
  if sp.rank = n then do
    let w ← sp.scaledDirection? dx norm
    let z ← solveTransposed? sp.r w
    sp.newtonQuotient? (norm - sp.radius) (nm.vecNorm z)
  else some 0

/-- `gradientNorm` with checked operations. -/
def gradientNorm? (sp : Subproblem α n) (nm : Numerics α) : Option α := do
  let g ← Vec.of? fun j =>
    div? (sumWhere (· ≤ j) fun i => sp.r i j * sp.rhs i) (sp.scale (sp.order j))
  return nm.vecNorm g

/-- `upperEnd` with checked operations. -/
def upperEnd? (sp : Subproblem α n) (nm : Numerics α) : Option α := do
  let gradient ← sp.gradientNorm? nm
  let u ← div? gradient sp.radius
  if u == 0 then div? nm.tiny (minNum sp.radius 0.1) else return u

/-- `bracket` with checked operations. -/
def bracket? (sp : Subproblem α n) (nm : Numerics α) (estimate : α) (dx : Vec α n) (norm : α) :
    Option (Bracket α) := do
  let lower ← sp.lowerEnd? nm dx norm
  let upper ← sp.upperEnd? nm
  let gradient ← sp.gradientNorm? nm
  let damping := minNum (maxNum estimate lower) upper
  let damping ← if damping == 0 then div? gradient norm else some damping
  return { damping, lower, upper, excess := norm - sp.radius }

/-- `probe` with checked operations. -/
def probe? (sp : Subproblem α n) (nm : Numerics α) (b : Bracket α) : Option (Probe α n) := do
  let damping := if b.damping == 0 then maxNum nm.tiny (0.001 * b.upper) else b.damping
  let root ← sqrt? damping
  let solution ← dampedSolve? sp.r sp.order (sp.scale.map (root * ·)) sp.rhs
  let dx := sp.scale.diagMul solution.x
  let norm := nm.vecNorm dx
  return { damping, solution, dx, norm, excess := norm - sp.radius }

/-- `substituteLower` with checked operations. -/
def substituteLower? (s : DampedSolution α n) (z : Vec α n) (j : Fin n) : Option (Vec α n) := do
  let t ← div? (z j) (s.sdiag j)
  return Vec.of fun i => if i = j then t else if j < i then z i - s.r i j * t else z i

/-- `correction` with checked operations. -/
def correction? (sp : Subproblem α n) (nm : Numerics α) (p : Probe α n) : Option α := do
  let w ← sp.scaledDirection? p.dx p.norm
  let z ← Fin.foldlM n (substituteLower? p.solution) w
  sp.newtonQuotient? p.excess (nm.vecNorm z)

/-- `refine` with checked operations. -/
def refine? (sp : Subproblem α n) (nm : Numerics α) (b : Bracket α) (p : Probe α n) :
    Option (Bracket α) := do
  let correction ← sp.correction? nm p
  let lower := if 0 < p.excess then maxNum b.lower p.damping else b.lower
  return {
    damping := maxNum lower (p.damping + correction)
    lower
    upper := if p.excess < 0 then minNum b.upper p.damping else b.upper
    excess := p.excess }

/-- `search` with checked operations. -/
def search? (sp : Subproblem α n) (nm : Numerics α) : Nat → Bracket α → Option (Probe α n)
  | 0, b => sp.probe? nm b
  | k + 1, b => do
    let p ← sp.probe? nm b
    if sp.accepts b p then return p
    else
      let b ← sp.refine? nm b p
      search? { sp with r := p.solution.r } nm k b

/-- `solve` with checked operations. -/
def solve? (sp : Subproblem α n) (nm : Numerics α) (estimate : α) : Option (DampedStep α n) := do
  let step ← sp.gaussNewton?
  let dx := sp.scale.diagMul step
  let norm := nm.vecNorm dx
  if norm - sp.radius ≤ 0.1 * sp.radius then
    return { damping := 0, step, sdiag := Vec.zero n, r := sp.r }
  else
    let b ← sp.bracket? nm estimate dx norm
    let p ← sp.search? nm 9 b
    return {
      damping := p.damping
      step := p.solution.x
      sdiag := p.solution.sdiag
      r := p.solution.r }

end Algorithms

variable {n : Nat} {eqs : NormalEquations n} {sp : Subproblem ℝ n} {ε τ : ℝ} {z : Bool}

/-! ### Triangular systems -/

/-- One step of the back substitution divides by the pivot of its column. -/
theorem substitute?_eq {r : Mat ℝ n n} {j : Fin n} (hdiag : r j j ≠ 0) (w : Vec ℝ n) :
    substitute? r j w = some (substitute r j w) := by
  unfold substitute?
  rw [div?_eq _ hdiag]
  rfl

/-- The Gauss-Newton step divides by the leading pivots only, which come before the first zero. -/
@[simp] theorem gaussNewton?_eq (sp : Subproblem ℝ n) : sp.gaussNewton? = some sp.gaussNewton := by
  have hloop : ∀ (j : Fin n) (w : Vec ℝ n),
      (if j.val < sp.rank then substitute? sp.r j w else some w) =
        some (if j.val < sp.rank then substitute sp.r j w else w) := by
    intro j w
    by_cases hj : j.val < sp.rank
    · rw [if_pos hj, if_pos hj, substitute?_eq (Mat.ne_zero_of_lt_firstZero hj)]
    · rw [if_neg hj, if_neg hj]
  unfold gaussNewton?
  simp only [foldrM_eq hloop, Option.bind_eq_bind, Option.bind_some]
  rfl

/-- Forward substitution divides by all pivots. -/
theorem solveTransposed?_eq {r : Mat ℝ n n} (hdiag : ∀ j, r j j ≠ 0) (w : Vec ℝ n) :
    solveTransposed? r w = some (solveTransposed r w) := by
  refine foldlM_eq ?_ w
  intro z j
  rw [div?_eq _ (hdiag j)]
  rfl

/-- Forward substitution in the damped triangle divides by its pivots. -/
theorem foldlM_substituteLower? {s : DampedSolution ℝ n} (hdiag : ∀ j, s.sdiag j ≠ 0)
    (w : Vec ℝ n) :
    Fin.foldlM n (substituteLower? s) w = some (Fin.foldl n (substituteLower s) w) := by
  refine foldlM_eq ?_ w
  intro z j
  unfold substituteLower?
  rw [div?_eq _ (hdiag j)]
  rfl

/-- The scaled direction divides by the length of the step. -/
theorem scaledDirection?_eq (sp : Subproblem ℝ n) (dx : Vec ℝ n) {norm : ℝ} (hnorm : norm ≠ 0) :
    sp.scaledDirection? dx norm = some (sp.scaledDirection dx norm) := by
  refine Vec.of?_eq ?_
  intro j
  rw [div?_eq _ hnorm]
  rfl

/-! ### The bracket -/

namespace Posed

variable (h : Posed eqs sp)

include h

/-- The quotient of Newton's method divides by the radius and by the length of the derivative. -/
theorem newtonQuotient?_eq (excess : ℝ) {t : ℝ} (ht : t ≠ 0) :
    sp.newtonQuotient? excess t = some (excess / sp.radius / t / t) := by
  unfold newtonQuotient?
  simp only [div?_eq _ h.radius_pos.ne', div?_eq _ ht, Option.bind_eq_bind, Option.bind_some]

/-- The lower end of the bracket is checked: a nonzero step has a nonzero derivative of its length.
-/
theorem lowerEnd?_eq {dx : Vec ℝ n} (hdx : dx.get ≠ 0) {norm : ℝ} (hnorm : norm ≠ 0) :
    sp.lowerEnd? (Numerics.exact ε τ z) dx norm =
      some (sp.lowerEnd (Numerics.exact ε τ z) dx norm) := by
  unfold lowerEnd? lowerEnd
  by_cases hrank : sp.rank = n
  · have hdiag : ∀ j, sp.r j j ≠ 0 := fun j =>
      Mat.ne_zero_of_lt_firstZero (lt_of_lt_of_eq j.isLt hrank.symm)
    have ht := vecNorm_pos_of_mulVec (ε := ε) (τ := τ) (z := z)
      (transpose_mulVec_solveTransposed hdiag (sp.scaledDirection dx norm))
      (h.scaledDirection_ne_zero hdx hnorm)
    simp only [if_pos hrank, scaledDirection?_eq sp dx hnorm, solveTransposed?_eq hdiag,
      h.newtonQuotient?_eq _ ht.ne', Option.bind_eq_bind, Option.bind_some]
  · rw [if_neg hrank, if_neg hrank]

/-- The norm of the scaled gradient divides by the scale factors. -/
theorem gradientNorm?_eq (nm : Numerics ℝ) : sp.gradientNorm? nm = some (sp.gradientNorm nm) := by
  unfold gradientNorm? gradientNorm
  simp only [div?_eq _ (h.scale_pos _).ne', Vec.of?_some, Option.bind_eq_bind, Option.bind_some,
    Option.pure_def]

/-- The upper end of the bracket divides by the radius, or by the smaller one of it and a tenth. -/
theorem upperEnd?_eq (nm : Numerics ℝ) : sp.upperEnd? nm = some (sp.upperEnd nm) := by
  have hmin : minNum sp.radius 0.1 ≠ 0 := by
    rw [Exact.minNum_eq]
    exact (lt_min h.radius_pos (by norm_num)).ne'
  unfold upperEnd? upperEnd
  simp only [h.gradientNorm?_eq, div?_eq _ h.radius_pos.ne', div?_eq _ hmin, Option.bind_eq_bind,
    Option.bind_some, Option.pure_def, ← apply_ite some]

/-- The bracket for the damping and the damping it starts with are checked. -/
theorem bracket?_eq (estimate : ℝ) {dx : Vec ℝ n} (hdx : dx.get ≠ 0) {norm : ℝ}
    (hnorm : norm ≠ 0) :
    sp.bracket? (Numerics.exact ε τ z) estimate dx norm =
      some (sp.bracket (Numerics.exact ε τ z) estimate dx norm) := by
  unfold bracket? bracket
  simp only [h.lowerEnd?_eq hdx hnorm, h.upperEnd?_eq, h.gradientNorm?_eq, div?_eq _ hnorm,
    Option.bind_eq_bind, Option.bind_some, Option.pure_def]
  split <;> rfl

/-! ### The search -/

variable (hτ : 0 < τ) {b : Bracket ℝ} (hb : b.Nonneg)

include hτ hb

omit h in
/-- A probe solves with positive damping, whose pivots are nonzero. -/
theorem probe?_eq : sp.probe? (Numerics.exact ε τ z) b =
    some (sp.probe (Numerics.exact ε τ z) b) := by
  have hdamping := (probe_damping_pos (ε := ε) (z := z) hτ sp hb).le
  rw [probe_damping] at hdamping
  unfold probe? probe
  simp only [sqrt?_eq hdamping, dampedSolve?_eq, Option.bind_eq_bind, Option.bind_some,
    Option.pure_def]

/-- The correction of the damping is checked: the step of a probe is not zero. -/
theorem correction?_eq :
    sp.correction? (Numerics.exact ε τ z) (sp.probe (Numerics.exact ε τ z) b) =
      some (sp.correction (Numerics.exact ε τ z) (sp.probe (Numerics.exact ε τ z) b)) := by
  have hnorm := (h.probe_norm_pos (ε := ε) (z := z) hτ hb).ne'
  have hdiag := h.probe_sdiag_ne_zero (ε := ε) (z := z) hτ hb
  have hdx := h.probe_dx_ne_zero (ε := ε) (z := z) hτ hb
  have ht := vecNorm_pos_of_mulVec (ε := ε) (τ := τ) (z := z)
    (transpose_mulVec_substituteLower hdiag _) (h.scaledDirection_ne_zero hdx hnorm)
  unfold correction? correction
  simp only [scaledDirection?_eq sp _ hnorm, foldlM_substituteLower? hdiag,
    h.newtonQuotient?_eq _ ht.ne', Option.bind_eq_bind, Option.bind_some]

/-- Moving the bracket to a probe is checked. -/
theorem refine?_eq :
    sp.refine? (Numerics.exact ε τ z) b (sp.probe (Numerics.exact ε τ z) b) =
      some (sp.refine (Numerics.exact ε τ z) b (sp.probe (Numerics.exact ε τ z) b)) := by
  unfold refine? refine
  rw [h.correction?_eq hτ hb]
  rfl

omit hb in
/-- The search for the damping is checked for any number of probes, by induction on it. -/
theorem search?_eq (k : Nat) {b : Bracket ℝ} (hb : b.Nonneg) :
    sp.search? (Numerics.exact ε τ z) k b = some (sp.search (Numerics.exact ε τ z) k b) := by
  induction k generalizing sp b with
  | zero => exact probe?_eq hτ hb
  | succ k ih =>
    rw [search?, search, probe?_eq hτ hb, Option.bind_eq_bind, Option.bind_some]
    by_cases hacc : sp.accepts b (sp.probe (Numerics.exact ε τ z) b)
    · simp only [if_pos hacc, Option.pure_def]
    · -- the search goes on only with a bracket that is not negative
      simp only [if_neg hacc, h.refine?_eq hτ hb]
      exact ih (h.congr (sameUpper_probe sp _ b)) (hb.refine _)

omit hb in
/-- The search for the damping never fails. -/
theorem solve?_eq (estimate : ℝ) :
    sp.solve? (Numerics.exact ε τ z) estimate =
      some (sp.solve (Numerics.exact ε τ z) estimate) := by
  unfold solve? solve
  rw [gaussNewton?_eq, Option.bind_eq_bind, Option.bind_some]
  simp only
  by_cases hshort : (Numerics.exact ε τ z).vecNorm (sp.scale.diagMul sp.gaussNewton) - sp.radius ≤
      0.1 * sp.radius
  · simp only [if_pos hshort, Option.pure_def]
  · have hle := radius_le_of_long h.radius_pos.le hshort
    have hdx := Vec.diagMul_ne_zero h.scale_pos h.gaussNewton_ne_zero
    have hbracket := nonneg_bracket (ε := ε) (z := z) hτ sp estimate
      (sp.scale.diagMul sp.gaussNewton) h.radius_pos.le hle
    simp only [if_neg hshort, h.bracket?_eq estimate hdx (lt_of_lt_of_le h.radius_pos hle).ne',
      h.search?_eq hτ 9 hbracket, Option.bind_eq_bind, Option.bind_some, Option.pure_def]

end Posed

end Subproblem

end NonlinearSolve

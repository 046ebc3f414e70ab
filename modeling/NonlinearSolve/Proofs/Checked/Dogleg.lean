import NonlinearSolve.Proofs.Checked.Operations
import NonlinearSolve.Proofs.TrustRegion.DoglegParts

/-! # The checked dogleg

The dogleg written with checked operations. Its divisions are by the divisors of the back
substitution, the radius, the scaling factors, and the lengths of the steps, of the gradient and of
the change of the model along it. With pivots and scaling factors that are not zero and a positive
radius none of these is zero, and the root is taken of a positive number, so the dogleg comes to an
end (`dogleg?_eq`). Replaced pivots are not zero if `epsilon` is not. -/

namespace NonlinearSolve

open Scalar Secular

namespace Dogleg

/-! ### Algorithms -/

section Algorithms

variable {α : Type} [Scalar α] {n : Nat}

/-- `gaussNewton` with checked operations. -/
def gaussNewton? (nm : Numerics α) (s : Trapezoid α n n) (rhs : Vec α n) : Option (Vec α n) :=
  Fin.foldrM n (fun j x => do
    let t ← div? (rhs j - sumWhere (j < ·) (fun i => s i j * x i)) (pivot nm s j)
    return x.set j t) (Vec.zero n)

/-- `gradient` with checked operations. -/
def gradient? (s : Trapezoid α n n) (scale rhs : Vec α n) : Option (Vec α n) :=
  Vec.of? fun j => div? (sumWhere (· ≤ j) (fun i => s j i * rhs i)) (scale j)

/-- `boundaryShare` with checked operations. -/
def boundaryShare? (radius qnorm sgnorm bnorm gnorm : α) : Option α := do
  let dq ← div? radius qnorm
  let sd ← div? sgnorm radius
  let bg ← div? bnorm gnorm
  let bq ← div? bnorm qnorm
  let t := bg * bq * sd
  let root ← sqrt? (square (t - dq) + (1 - dq * dq) * (1 - sd * sd))
  div? (dq * (1 - sd * sd)) (t - dq * sd * sd + root)

/-- `blend` with checked operations. The share of a Gauss-Newton step that is cut off is computed
first, whether it is used or not. -/
def blend? (nm : Numerics α) (s : Trapezoid α n n) (scale rhs : Vec α n) (radius qnorm : α) :
    Option (Blend α n) := do
  let g ← gradient? s scale rhs
  let gnorm := nm.vecNorm g
  let cut ← div? radius qnorm
  if gnorm == 0 then
    return { direction := g, reach := 0, share := cut }
  else
    let direction ← Vec.of? fun j => do
      let t ← div? (g j) gnorm
      div? t (scale j)
    let t := nm.vecNorm (product s direction)
    let u ← div? gnorm t
    let sgnorm ← div? u t
    let share ←
      if sgnorm < radius then boundaryShare? radius qnorm sgnorm (nm.vecNorm rhs) gnorm else some 0
    return { direction, reach := sgnorm, share }

end Algorithms

variable {n : Nat} {ε τ : ℝ} {z : Bool} {s : Trapezoid ℝ n n} {scale b : Vec ℝ n} {radius q : ℝ}

/-! ### The parts -/

/-- Back substitution divides by the pivots as they are replaced, so those have to be nonzero. -/
theorem gaussNewton?_eq {nm : Numerics ℝ} (hpivot : ∀ j, pivot nm s j ≠ 0) (b : Vec ℝ n) :
    gaussNewton? nm s b = some (gaussNewton nm s b) := by
  refine foldrM_eq ?_ _
  intro j x
  rw [div?_eq _ (hpivot j)]
  rfl

/-- The scaled gradient divides by the scale factors. -/
theorem gradient?_eq (hscale : ∀ j, scale j ≠ 0) :
    gradient? s scale b = some (gradient s scale b) := by
  refine Vec.of?_eq ?_
  intro j
  exact div?_eq _ (hscale j)

/-- The direction of steepest descent divides by the gradient's length and by the scale factors. -/
theorem direction?_eq {g : ℝ} (hscale : ∀ j, scale j ≠ 0) (hg : g ≠ 0) (v : Vec ℝ n) :
    (Vec.of? fun j => do
      let t ← div? (v j) g
      div? t (scale j)) = some (Vec.of fun j => v j / g / scale j) := by
  refine Vec.of?_eq ?_
  intro j
  rw [div?_eq _ hg, Option.bind_eq_bind, Option.bind_some]
  exact div?_eq _ (hscale j)

/-- The share of the second leg is found without a division by zero and without the root of a
negative number: the Cauchy point lies inside the boundary and the Gauss-Newton point outside. -/
theorem boundaryShare?_eq {r β g : ℝ} (hr : 0 ≤ r) (hrr : r < radius) (hrq : radius < q)
    (hg : g ≠ 0) (hk : r ^ 2 ≤ correlation r β g) :
    boundaryShare? radius q r β g = some (boundaryShare radius q r β g) := by
  have hradius : radius ≠ 0 := (hr.trans_lt hrr).ne'
  have hq : q ≠ 0 := ((hr.trans_lt hrr).trans hrq).ne'
  have hroot := (radicand_pos (b := β) (g := g) hr hrr hrq).le
  have hdivisor := (shareDivisor_pos hr hrr hrq hk).ne'
  rw [radicand] at hroot
  rw [shareDivisor, radicand, ← Exact.sqrt_eq] at hdivisor
  unfold boundaryShare? boundaryShare
  simp only [div?_eq _ hq, div?_eq _ hradius, div?_eq _ hg, sqrt?_eq hroot, div?_eq _ hdivisor,
    Option.bind_eq_bind, Option.bind_some]

/-- Outside the trust region the blended step is checked for every triangular matrix: a gradient
that vanishes is tested for before anything is divided by its length. -/
theorem blend?_eq (hscale : ∀ j, scale j ≠ 0) (hradius : 0 < radius) (hq : radius < q) :
    blend? (Numerics.exact ε τ z) s scale b radius q =
      some (blend (Numerics.exact ε τ z) s scale b radius q) := by
  have hqne : q ≠ 0 := (hradius.trans hq).ne'
  unfold blend?
  simp only [gradient?_eq hscale, div?_eq _ hqne, gradientNorm_eq, Option.bind_eq_bind,
    Option.bind_some]
  by_cases hslope : slope s scale b = 0
  · have hzero : (length (slope s scale b) == 0) = true :=
      (Exact.beq_iff _ _).2 (length_eq_zero.2 hslope)
    rw [if_pos hzero, blend_of_eq_zero hslope]
    rfl
  · have hg : length (slope s scale b) ≠ 0 := (length_pos hslope).ne'
    have hne : ¬ (length (slope s scale b) == 0) = true := mt (Exact.beq_iff _ _).1 hg
    obtain ⟨ht, hreach⟩ := cauchyLength_eq (ε := ε) (τ := τ) (z := z) hscale hslope
    have hdirection := direction?_eq hscale hg (gradient s scale b)
    rw [Option.bind_eq_bind] at hdirection
    rw [if_neg hne, blend_of_ne_zero hscale hslope, hdirection]
    simp only [div?_eq _ ht, hreach, Subproblem.vecNorm_eq_length b, Option.bind_some]
    by_cases hshort : reach s scale b < radius
    · have hshare := boundaryShare?_eq reach_nonneg hshort hq hg (reach_sq_le hscale hslope)
      rw [if_pos hshort, if_pos hshort, hshare]
      rfl
    · rw [if_neg hshort, if_neg hshort]
      rfl

end Dogleg

open Dogleg

/-- `dogleg` with checked operations. -/
def dogleg? {α : Type} [Scalar α] {n : Nat} (nm : Numerics α) (s : Trapezoid α n n)
    (scale rhs : Vec α n) (radius : α) : Option (Vec α n) := do
  let x ← gaussNewton? nm s rhs
  let qnorm := nm.scaledNorm scale x
  if qnorm ≤ radius then return x
  else
    let b ← blend? nm s scale rhs radius qnorm
    let t := (1 - b.share) * minNum b.reach radius
    return Vec.of fun j => t * b.direction j + b.share * x j

/-- The dogleg never fails. -/
theorem dogleg?_eq {n : Nat} {ε τ : ℝ} {z : Bool} {s : Trapezoid ℝ n n} {scale b : Vec ℝ n}
    {radius : ℝ} (hpivot : ∀ j, pivot (Numerics.exact ε τ z) s j ≠ 0) (hscale : ∀ j, scale j ≠ 0)
    (hradius : 0 < radius) :
    dogleg? (Numerics.exact ε τ z) s scale b radius =
      some (dogleg (Numerics.exact ε τ z) s scale b radius) := by
  unfold dogleg? dogleg
  rw [gaussNewton?_eq hpivot, Option.bind_eq_bind, Option.bind_some]
  simp only
  by_cases hle : (Numerics.exact ε τ z).scaledNorm scale (gaussNewton (Numerics.exact ε τ z) s b) ≤
      radius
  · simp only [if_pos hle, Option.pure_def]
  · simp only [if_neg hle, blend?_eq hscale hradius (not_le.1 hle), Option.bind_eq_bind,
      Option.bind_some, Option.pure_def]

end NonlinearSolve

import NonlinearSolve.Numerics
import NonlinearSolve.Linear.Trapezoid

/-! # The dogleg step

The dogleg is the broken line from the origin over the Cauchy point, where the model `‖R x - Qᵀ b‖`
is smallest along the scaled gradient, to the Gauss-Newton point. `dogleg` follows it until the
scaled length `‖D x‖` reaches the bound. The upper triangular `R` is given by its transpose. -/

namespace NonlinearSolve

open Scalar

namespace Dogleg

variable {α : Type} [Scalar α] {n : Nat}

/-- The largest magnitude in column `j` of `R`. -/
def columnMax (s : Trapezoid α n n) (j : Fin n) : α :=
  Fin.foldl n (fun t i => if i ≤ j then maxNum t (mag (s j i)) else t) (s j j)

/-- The divisor for component `j` of the Gauss-Newton step: the diagonal entry of `R`. A zero is
replaced by a small multiple of the largest entry in its column, and by a small number if the column
is zero. -/
def pivot (nm : Numerics α) (s : Trapezoid α n n) (j : Fin n) : α :=
  if s j j == 0 then
    let t := nm.epsilon * columnMax s j
    if t == 0 then nm.epsilon else t
  else s j j

/-- The Gauss-Newton step, by back substitution. -/
def gaussNewton (nm : Numerics α) (s : Trapezoid α n n) (rhs : Vec α n) : Vec α n :=
  Fin.foldr n (fun j x =>
    x.set j ((rhs j - sumWhere (j < ·) (fun i => s i j * x i)) / pivot nm s j)) (Vec.zero n)

/-- The scaled gradient `D⁻¹ Rᵀ Qᵀ b`. -/
def gradient (s : Trapezoid α n n) (scale rhs : Vec α n) : Vec α n :=
  Vec.of fun j => sumWhere (· ≤ j) (fun i => s j i * rhs i) / scale j

/-- The product `R x`. -/
def product (s : Trapezoid α n n) (x : Vec α n) : Vec α n :=
  Vec.of fun i => sumWhere (i ≤ ·) (fun j => s j i * x j)

/-- The share of the Gauss-Newton step in the point of the dogleg that has the scaled length
`radius`. The Gauss-Newton step has the length `qnorm` and the Cauchy step the shorter length
`sgnorm`; `bnorm` is the norm of `Qᵀ b` and `gnorm` that of the scaled gradient. -/
def boundaryShare (radius qnorm sgnorm bnorm gnorm : α) : α :=
  let dq := radius / qnorm
  let sd := sgnorm / radius
  let t := bnorm / gnorm * (bnorm / qnorm) * sd
  let t := t - dq * sd * sd + sqrt (square (t - dq) + (1 - dq * dq) * (1 - sd * sd))
  dq * (1 - sd * sd) / t

/-- A combination of a direction along the scaled gradient and the Gauss-Newton step: their
multiples by `min reach radius * (1 - share)` and `share`. -/
structure Blend (α : Type) (n : Nat) where
  /-- The direction along the scaled gradient. -/
  direction : Vec α n
  /-- The length of the Cauchy step. -/
  reach : α
  /-- The share of the Gauss-Newton step. -/
  share : α

/-- The combination for a Gauss-Newton step of the scaled length `qnorm`, which exceeds `radius`. If
the gradient is zero, the Gauss-Newton step is cut off; if the Cauchy step is not shorter than
`radius`, it is cut off and the Gauss-Newton step has no share. -/
def blend (nm : Numerics α) (s : Trapezoid α n n) (scale rhs : Vec α n) (radius qnorm : α) :
    Blend α n :=
  let g := gradient s scale rhs
  let gnorm := nm.vecNorm g
  if gnorm == 0 then
    { direction := g, reach := 0, share := radius / qnorm }
  else
    let direction := Vec.of fun j => g j / gnorm / scale j
    let t := nm.vecNorm (product s direction)
    let sgnorm := gnorm / t / t
    let share :=
      if sgnorm < radius then boundaryShare radius qnorm sgnorm (nm.vecNorm rhs) gnorm else 0
    { direction, reach := sgnorm, share }

end Dogleg

/-- The dogleg step of scaled length at most `radius`; `s` is the transpose of `R`. -/
def dogleg {α : Type} [Scalar α] {n : Nat} (nm : Numerics α) (s : Trapezoid α n n)
    (scale rhs : Vec α n) (radius : α) : Vec α n :=
  let x := Dogleg.gaussNewton nm s rhs
  let qnorm := nm.scaledNorm scale x
  if qnorm ≤ radius then x
  else
    let b := Dogleg.blend nm s scale rhs radius qnorm
    let t := (1 - b.share) * minNum b.reach radius
    Vec.of fun j => t * b.direction j + b.share * x j

end NonlinearSolve

import NonlinearSolve.Linear.DampedSolve
import NonlinearSolve.Numerics

/-! # The trust region subproblem

The step `p` of a damped least squares method minimizes `‖A p - b‖` over `‖D p‖ ≤ Δ`. It is the
solution for some damping `λ ≥ 0` of `(Aᵀ A + λ D²) p = Aᵀ b`, with `λ = 0` unless `‖D p‖ = Δ`.
`Subproblem.solve` accepts any length of `D p` within a tenth of `Δ`.

If the Gauss-Newton step, `λ = 0`, is too long, the damping is searched for in a bracket.
Its lower end comes from the slope at zero (and is zero for a singular `R`), its upper end from the
scaled gradient. Each of at most ten probes solves the damped system, and the Newton correction for
the secular equation gives the next damping. -/

namespace NonlinearSolve

open Scalar

/-- A trust region subproblem, `A P = Q R` being factored. -/
structure Subproblem (α : Type) (n : Nat) where
  /-- The triangular factor `R`. -/
  r : Mat α n n
  /-- The ordering of `P`. -/
  order : Vec (Fin n) n
  /-- The diagonal of the scaling `D`. -/
  scale : Vec α n
  /-- The first entries of `Qᵀ b`. -/
  rhs : Vec α n
  /-- The bound `Δ` of the scaled step. -/
  radius : α

/-- A step with the damping it belongs to. -/
structure DampedStep (α : Type) (n : Nat) where
  /-- The damping `λ`. -/
  damping : α
  /-- The step. -/
  step : Vec α n
  /-- The diagonal of the factor `S` of the damped system; zeros if there is no damping. -/
  sdiag : Vec α n
  /-- `R` on and above the diagonal and, if there is damping, `Sᵀ` below it. -/
  r : Mat α n n

namespace Subproblem

variable {α : Type} [Scalar α] {n : Nat}

/-! ### The Gauss-Newton step -/

/-- The number of columns before the first zero on the diagonal of `R`. -/
def rank (sp : Subproblem α n) : Nat := sp.r.diagonal.firstZero

/-- Determines component `j` of the solution of a triangular system and takes its share out of the
equations above. -/
def substitute (r : Mat α n n) (j : Fin n) (w : Vec α n) : Vec α n :=
  let t := w j / r j j
  Vec.of fun i => if i = j then t else if i < j then w i - r i j * t else w i

/-- The Gauss-Newton step. The components that belong to the columns from the first zero on the
diagonal on are zero. -/
def gaussNewton (sp : Subproblem α n) : Vec α n :=
  let w := Vec.of fun j => if j.val < sp.rank then sp.rhs j else 0
  Vec.scatter sp.order <|
    Fin.foldr n (fun j w => if j.val < sp.rank then substitute sp.r j w else w) w

/-! ### The bracket -/

/-- A bracket of the damping that is searched for. -/
structure Bracket (α : Type) where
  /-- The damping to be probed next. -/
  damping : α
  /-- The lower end. -/
  lower : α
  /-- The upper end. -/
  upper : α
  /-- By how much the last step was longer than `Δ`. -/
  excess : α

/-- The scaled step `dx` of length `norm` as a unit vector, scaled once more and in the order of the
columns of `R`. -/
def scaledDirection (sp : Subproblem α n) (dx : Vec α n) (norm : α) : Vec α n :=
  Vec.of fun j => sp.scale (sp.order j) * (dx (sp.order j) / norm)

/-- Solves `Rᵀ z = w`. -/
def solveTransposed (r : Mat α n n) (w : Vec α n) : Vec α n :=
  Fin.foldl n (fun z j =>
    z.set j ((z j - sumWhere (· < j) (fun i => r i j * z i)) / r j j)) w

/-- The lower end of the bracket. For a regular `R` the Newton step from zero damping stays below
the root; for a singular one there is no such bound but zero. -/
def lowerEnd (sp : Subproblem α n) (nm : Numerics α) (dx : Vec α n) (norm : α) : α :=
  if sp.rank = n then
    let t := nm.vecNorm (solveTransposed sp.r (sp.scaledDirection dx norm))
    (norm - sp.radius) / sp.radius / t / t
  else 0

/-- The norm of the scaled gradient `D⁻¹ Aᵀ b`. -/
def gradientNorm (sp : Subproblem α n) (nm : Numerics α) : α :=
  nm.vecNorm <| Vec.of fun j =>
    sumWhere (· ≤ j) (fun i => sp.r i j * sp.rhs i) / sp.scale (sp.order j)

/-- The upper end of the bracket, which is never zero. -/
def upperEnd (sp : Subproblem α n) (nm : Numerics α) : α :=
  let u := sp.gradientNorm nm / sp.radius
  if u == 0 then nm.tiny / minNum sp.radius 0.1 else u

/-- The bracket of the search after the Gauss-Newton step, whose scaled form `dx` of length `norm`
is too long. The first probe is the estimate, moved into the bracket. -/
def bracket (sp : Subproblem α n) (nm : Numerics α) (estimate : α) (dx : Vec α n) (norm : α) :
    Bracket α :=
  let lower := sp.lowerEnd nm dx norm
  let upper := sp.upperEnd nm
  let damping := minNum (maxNum estimate lower) upper
  { damping := if damping == 0 then sp.gradientNorm nm / norm else damping
    lower
    upper
    excess := norm - sp.radius }

/-! ### Probes -/

/-- The damped step at one value of the damping. -/
structure Probe (α : Type) (n : Nat) where
  /-- The damping. -/
  damping : α
  /-- The solution of the damped system. -/
  solution : DampedSolution α n
  /-- The scaled step. -/
  dx : Vec α n
  /-- The length of the scaled step. -/
  norm : α
  /-- By how much the scaled step is longer than `Δ`. -/
  excess : α

/-- Probes the damping `b.damping`. A damping of zero is replaced by a small positive one. -/
def probe (sp : Subproblem α n) (nm : Numerics α) (b : Bracket α) : Probe α n :=
  let damping := if b.damping == 0 then maxNum nm.tiny (0.001 * b.upper) else b.damping
  let root := sqrt damping
  let solution := dampedSolve sp.r sp.order (sp.scale.map (root * ·)) sp.rhs
  let dx := sp.scale.diagMul solution.x
  let norm := nm.vecNorm dx
  { damping, solution, dx, norm, excess := norm - sp.radius }

/-- Whether the search ends with this probe: its length is within a tenth of `Δ`, or there is no
lower bound and the step is short and getting no longer. -/
def accepts (sp : Subproblem α n) (b : Bracket α) (p : Probe α n) : Bool :=
  mag p.excess ≤ 0.1 * sp.radius || (b.lower == 0 && p.excess ≤ b.excess && b.excess < 0)

/-- Determines component `j` of the solution of a system with the matrix `Sᵀ` and takes its share
out of the equations below. -/
def substituteLower (s : DampedSolution α n) (z : Vec α n) (j : Fin n) : Vec α n :=
  let t := z j / s.sdiag j
  Vec.of fun i => if i = j then t else if j < i then z i - s.r i j * t else z i

/-- The Newton correction of the damping at a probe. -/
def correction (sp : Subproblem α n) (nm : Numerics α) (p : Probe α n) : α :=
  let z := Fin.foldl n (substituteLower p.solution) (sp.scaledDirection p.dx p.norm)
  let t := nm.vecNorm z
  p.excess / sp.radius / t / t

/-- The bracket after a probe: the probe becomes its lower end if the step was too long, its upper
end if it was too short, and the next probe is the Newton iterate, but not below the lower end. -/
def refine (sp : Subproblem α n) (nm : Numerics α) (b : Bracket α) (p : Probe α n) : Bracket α :=
  let lower := if 0 < p.excess then maxNum b.lower p.damping else b.lower
  { damping := maxNum lower (p.damping + sp.correction nm p)
    lower
    upper := if p.excess < 0 then minNum b.upper p.damping else b.upper
    excess := p.excess }

/-- Searches with at most `k + 1` probes; the last one is returned whatever its length. A probe gets
the matrix that the one before has left, with a factor of its own below the diagonal. -/
def search (sp : Subproblem α n) (nm : Numerics α) : Nat → Bracket α → Probe α n
  | 0, b => sp.probe nm b
  | k + 1, b =>
    let p := sp.probe nm b
    if sp.accepts b p then p
    else search { sp with r := p.solution.r } nm k (sp.refine nm b p)

/-- The step and its damping, given an estimate of the damping. -/
def solve (sp : Subproblem α n) (nm : Numerics α) (estimate : α) : DampedStep α n :=
  let step := sp.gaussNewton
  let dx := sp.scale.diagMul step
  let norm := nm.vecNorm dx
  -- the Gauss-Newton step needs no damping if it is not too long
  if norm - sp.radius ≤ 0.1 * sp.radius then
    { damping := 0, step, sdiag := Vec.zero n, r := sp.r }
  else
    let p := sp.search nm 9 (sp.bracket nm estimate dx norm)
    { damping := p.damping, step := p.solution.x, sdiag := p.solution.sdiag, r := p.solution.r }

end Subproblem

end NonlinearSolve

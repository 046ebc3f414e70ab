import NonlinearSolve.Numerics
import NonlinearSolve.Termination

/-! # Scaling of the unknowns

The trust region is a ball in the scaled unknowns `D x`. The diagonal of `D` is given by the caller,
is the identity, or adapts to the Jacobians met in the solve: then it is the largest norm that
column `j` has had so far. -/

namespace NonlinearSolve

open Scalar

/-- How the unknowns are scaled. -/
inductive Scaling (α : Type) where
  /-- By the norms of the columns of the Jacobian, never decreasing. -/
  | jacobian
  /-- Not at all. -/
  | unit
  /-- By the given factors. -/
  | fixed (factors : List α)

namespace Scaling

variable {α : Type} [Scalar α]

/-- Whether the factors follow the Jacobian. -/
def isAdaptive : Scaling α → Bool
  | jacobian => true
  | _ => false

/-- The fault of the scaling for `n` unknowns, if it has one: fixed factors must be `n` positive
numbers. -/
def fault? (n : Nat) : Scaling α → Option InputError
  | fixed factors =>
    if factors.length = n then
      (factors.findIdx? fun d => !decide (0 < d)).map .nonPositiveScale
    else some (.scaleLength n factors.length)
  | _ => none

/-- The factors before a Jacobian is known: the fixed ones if their number is right, and ones
otherwise. -/
def initial (n : Nat) : Scaling α → Vec α n
  | fixed factors => if factors.length = n then Vec.ofList n 1 factors else Vec.const n 1
  | _ => Vec.const n 1

/-- The factors that belong to the column norms of the first Jacobian. A zero column is not
scaled. -/
def first (s : Scaling α) {n : Nat} (diag norms : Vec α n) : Vec α n :=
  if s.isAdaptive then norms.map fun d => if d == 0 then 1 else d else diag

/-- The factors after a Jacobian with the given column norms. -/
def grow (s : Scaling α) {n : Nat} (diag norms : Vec α n) : Vec α n :=
  if s.isAdaptive then Vec.of fun j => maxNum (diag j) (norms j) else diag

end Scaling

/-- The fault of a tolerance, which must be a number that is not negative. -/
def Tolerance.fault? {α : Type} [Scalar α] (t : Tolerance) (x : α) : Option InputError :=
  if 0 ≤ x then none else some (.negativeTolerance t)

end NonlinearSolve

import Mathlib.Analysis.SpecialFunctions.Sqrt
import NonlinearSolve.Linear.Mat
import NonlinearSolve.Proofs.Exact.Arithmetic

/-! # Checked operations

A number type has a quotient for every divisor and a root for every number. The checked operations
`Scalar.div?` and `Scalar.sqrt?` have no result where the exact ones are undefined: for the divisor
zero and below zero. An algorithm that is written with them, step by step as it is run, comes to an
end only if it never divides by zero and never takes the root of a negative number, not even in a
quantity that is not used afterwards.

Besides the two operations this file has the checked forms of what the algorithms are made of, that
is, vectors given by their entries and loops, and says when these come to an end. -/

namespace NonlinearSolve

/-! ### Operations -/

namespace Scalar

variable {α : Type} [Scalar α]

/-- The quotient, unless the divisor is zero. -/
def div? (x y : α) : Option α := if y == 0 then none else some (x / y)

/-- The square root, unless the number is negative. -/
def sqrt? (x : α) : Option α := if x < 0 then none else some (sqrt x)

/-- A division by a nonzero number is the division. -/
@[simp] theorem div?_eq (x : ℝ) {y : ℝ} (hy : y ≠ 0) : div? x y = some (x / y) :=
  if_neg (mt (Exact.beq_iff _ _).1 hy)

/-- The root of a nonnegative number is the root. -/
@[simp] theorem sqrt?_eq {x : ℝ} (hx : 0 ≤ x) : sqrt? x = some (sqrt x) := if_neg (not_lt.2 hx)

end Scalar

/-! ### Vectors and matrices -/

section Entries

variable {α : Type} {m n : Nat}

/-- The vector with the entries `f 0, f 1, …`, if all of them are defined. -/
def Vec.of? (f : Fin n → Option α) : Option (Vec α n) :=
  if h : ∀ i, (f i).isSome then some (.of fun i => (f i).get (h i)) else none

/-- A vector of defined entries is defined. -/
@[simp] theorem Vec.of?_some (f : Fin n → α) : (of? fun i => some (f i)) = some (of f) :=
  dif_pos fun _ => rfl

/-- A vector whose entries are checked is checked. -/
theorem Vec.of?_eq {f? : Fin n → Option α} {f : Fin n → α} (h : ∀ i, f? i = some (f i)) :
    of? f? = some (of f) := by
  obtain rfl : f? = fun i => some (f i) := funext h
  exact of?_some f

/-- The matrix with the columns `c 0, c 1, …`, if all of them are defined. -/
def Mat.ofCols? (c : Fin n → Option (Vec α m)) : Option (Mat α m n) := (Vec.of? c).map Mat.mk

/-- A matrix of defined columns is defined. -/
@[simp] theorem Mat.ofCols?_some (c : Fin n → Vec α m) :
    (ofCols? fun j => some (c j)) = some (ofCols c) := by
  rw [ofCols?, Vec.of?_some]
  rfl

end Entries

/-! ### Loops -/

section Loops

variable {β : Type} {n : Nat}

/-- A loop comes to its end if every pass does. -/
theorem foldlM_eq {f? : β → Fin n → Option β} {f : β → Fin n → β}
    (step : ∀ b j, f? b j = some (f b j)) (b : β) :
    Fin.foldlM n f? b = some (Fin.foldl n f b) := by
  obtain rfl : f? = fun b j => some (f b j) := funext₂ step
  exact Fin.foldlM_pure

/-- The same for a loop from the last index to the first. -/
theorem foldrM_eq {f? : Fin n → β → Option β} {f : Fin n → β → β}
    (step : ∀ j b, f? j b = some (f j b)) (b : β) :
    Fin.foldrM n f? b = some (Fin.foldr n f b) := by
  obtain rfl : f? = fun j b => some (f j b) := funext₂ step
  exact Fin.foldrM_pure

end Loops

/-! ### Sums -/

/-- `sumWhere` of terms that may be undefined. -/
def Scalar.sumWhere? {α : Type} [Scalar α] {n : Nat} (p : Fin n → Prop) [DecidablePred p]
    (f : Fin n → Option α) : Option α :=
  Fin.foldlM n (fun s i =>
    if p i then do
      let t ← f i
      return s + t
    else some s) 0

/-- A sum of defined terms is defined. -/
@[simp] theorem Scalar.sumWhere?_some {n : Nat} (p : Fin n → Prop) [DecidablePred p]
    (f : Fin n → ℝ) : (sumWhere? p fun i => some (f i)) = some (sumWhere p f) := by
  refine foldlM_eq ?_ _
  intro s i
  exact (apply_ite some _ _ _).symm

end NonlinearSolve

import Mathlib.Analysis.SpecialFunctions.Sqrt
import Mathlib.Data.Matrix.Mul
import NonlinearSolve.Linear.Trapezoid
import NonlinearSolve.Proofs.Exact.Arithmetic

/-! # Stored matrices as matrices

The stored matrices of the library, read as matrices in the sense of linear algebra, so that
products and transposes are available for what is said about them. -/

namespace NonlinearSolve

open Matrix

variable {m n : Nat}

/-- The entries of a vector built from a function are its values. -/
theorem Vec.get_of {α : Type} (f : Fin n → α) : (Vec.of f).get = f :=
  funext fun i => Vec.of_apply f i

/-- The identity ordering as a function. -/
theorem Vec.get_identity (n : Nat) : (Vec.identity n).get = id := get_of id

namespace Mat

/-- A stored matrix as a matrix. -/
def toMatrix (a : Mat ℝ m n) : Matrix (Fin m) (Fin n) ℝ := Matrix.of fun i j => a i j

/-- The entries of a matrix are those it is stored by. -/
@[simp] theorem toMatrix_apply (a : Mat ℝ m n) (i : Fin m) (j : Fin n) :
    a.toMatrix i j = a i j := rfl

/-- The identity matrix is the identity matrix of the library. -/
theorem toMatrix_identity : (Mat.identity n : Mat ℝ n n).toMatrix = 1 := by
  ext i j
  rw [toMatrix_apply, identity_apply, Matrix.one_apply]

/-- The entries on and above the diagonal of a square matrix, with zeros below it. -/
def upper (a : Mat ℝ n n) : Matrix (Fin n) (Fin n) ℝ :=
  Matrix.of fun i j => if i ≤ j then a i j else 0

/-- On and above the diagonal the upper triangle is the matrix. -/
theorem upper_of_le (a : Mat ℝ n n) {i j : Fin n} (h : i ≤ j) : a.upper i j = a i j := if_pos h

/-- Below the diagonal the upper triangle is zero. -/
theorem upper_of_lt (a : Mat ℝ n n) {i j : Fin n} (h : j < i) : a.upper i j = 0 :=
  if_neg (not_le.2 h)

end Mat

namespace Trapezoid

/-- The upper triangular matrix whose transpose is stored. -/
def upper (t : Trapezoid ℝ m n) : Matrix (Fin n) (Fin m) ℝ := t.full.toMatrixᵀ

/-- The rows of the triangle that a trapezoid stores are its columns. -/
@[simp] theorem upper_apply (t : Trapezoid ℝ m n) (i : Fin n) (j : Fin m) :
    t.upper i j = t j i := rfl

end Trapezoid

end NonlinearSolve

import NonlinearSolve.Norm

/-! # The parameters of an arithmetic

What the algorithms must know of the number type besides its operations: its relative precision,
its smallest number, how a norm is computed and which cosines have a reciprocal. The two records for
binary64 differ in the bands of the norm and in whether residuals that are exactly zero end a
solve at once; exact arithmetic has a record with the plain Euclidean norm. -/

namespace NonlinearSolve

/-- The parameters of an arithmetic on `α`. -/
structure Numerics (α : Type) where
  /-- The distance from one to the next larger number. -/
  epsilon : α
  /-- The smallest positive number of full precision. -/
  tiny : α
  /-- The Euclidean norm of a list of components. -/
  norm : List α → α
  /-- Whether the reciprocal of a number stays within the range of the arithmetic. -/
  invertible : α → Bool
  /-- Whether a solver ends as soon as the residuals are exactly zero. -/
  stopAtZero : Bool

namespace Numerics

/-- The Euclidean norm of a vector. -/
def vecNorm {α : Type} {n : Nat} (nm : Numerics α) (v : Vec α n) : α := nm.norm v.toList

/-- The norm of the entries of `v` from index `k` on. -/
def tailNorm {α : Type} {n : Nat} (nm : Numerics α) (v : Vec α n) (k : Nat) : α :=
  nm.norm (v.toList.drop k)

/-- The norm of `v` in the units that the diagonal `d` gives. -/
def scaledNorm {α : Type} [Scalar α] {n : Nat} (nm : Numerics α) (d v : Vec α n) : α :=
  nm.vecNorm (d.diagMul v)

/-! ### Binary64 -/

/-- The smallest positive normalized binary64 number, `2 ^ (-1022)`. -/
def binary64Tiny : Float := Float.ofBits 0x0010000000000000

/-- The largest finite binary64 number. -/
def binary64Max : Float := Float.ofBits 0x7FEFFFFFFFFFFFFF

/-- Binary64 with the bands that its whole range admits. -/
def binary64 : Numerics Float where
  epsilon := Float.ofBits 0x3CB0000000000000
  tiny := binary64Tiny
  norm := Bands.norm ⟨Float.sqrt (binary64Tiny * 1.5) * 10, Float.sqrt binary64Max * 0.1⟩
  invertible c := 1 < c.abs * binary64Max
  stopAtZero := true

/-- Binary64 with narrower bands, made for arithmetics of smaller range, and without the early end
on zero residuals. -/
def binary64Classic : Numerics Float :=
  { binary64 with
    norm := Bands.norm ⟨3.834e-20, 1.304e19⟩
    stopAtZero := false }

end Numerics

end NonlinearSolve

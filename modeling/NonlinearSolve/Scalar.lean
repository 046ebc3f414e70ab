/-! # Number types

The algorithms of this library are written once, for every number type. `Scalar α` holds the
operations they use and no laws: binary64 (`Float`) is the instance that runs, and an exact field is
an instance to reason in. Whatever is stated for an arbitrary `Scalar` holds of rounded arithmetic
as well; what needs laws is stated for a type that has them.

Besides the class this file has the three things that every loop of the library is made of: the
zero test `x == 0`, the maximum and minimum that ignore an undefined argument, and sums that run
through an index type from its first to its last element. -/

namespace NonlinearSolve

/-- The operations of a number type. `==` is the equality of the arithmetic and not that of
representations: both zeros of binary64 are equal to `0`, and an undefined number is equal to
nothing, itself included. -/
class Scalar (α : Type) extends Add α, Sub α, Mul α, Div α, Neg α, Zero α, One α, NatCast α,
    OfScientific α, LT α, LE α, BEq α where
  /-- The magnitude, that is, the absolute value. -/
  mag : α → α
  /-- The square root. -/
  sqrt : α → α
  /-- The natural logarithm. -/
  log : α → α
  /-- The value of a quantity that was never computed. -/
  nan : α
  /-- The strict order is decidable. -/
  decLT : DecidableLT α
  /-- The order is decidable. -/
  decLE : DecidableLE α

namespace Scalar

variable {α : Type} [Scalar α]

/-- Comparisons are decided, so a branch on one can run. -/
instance : DecidableLT α := Scalar.decLT

/-- The same for weak comparisons. -/
instance : DecidableLE α := Scalar.decLE

/-- Binary64 arithmetic. Every operation is rounded once, to nearest. -/
instance : Scalar Float where
  zero := 0
  one := 1
  natCast := Float.ofNat
  mag := Float.abs
  sqrt := Float.sqrt
  log := Float.log
  nan := 0.0 / 0.0
  decLT := Float.decLt
  decLE := Float.decLe

/-- The square, as one product. -/
def square (x : α) : α := x * x

/-- The larger of two numbers. If one of them is undefined it is the other, and of two equal numbers
it is the first. -/
def maxNum (x y : α) : α :=
  if x < y then y else if x == x then x else y

/-- The smaller of two numbers. If one of them is undefined it is the other, and of two equal
numbers it is the second. So the larger and the smaller of two defined numbers are the two of them,
also if these are the two zeros. -/
def minNum (x y : α) : α :=
  if x < y then x else if y == y then y else x

/-! ### Sums in index order -/

/-- The sum of `f 0, f 1, …` from the first index to the last, starting from zero. -/
def sum {n : Nat} (f : Fin n → α) : α :=
  Fin.foldl n (fun s i => s + f i) 0

/-- The sum of the `f i` with `p i`, in the order of the indices and starting from zero. The other
indices add nothing, not even a zero. -/
def sumWhere {n : Nat} (p : Fin n → Prop) [DecidablePred p] (f : Fin n → α) : α :=
  Fin.foldl n (fun s i => if p i then s + f i else s) 0

end Scalar

end NonlinearSolve

import NonlinearSolve.Linear.Mat

/-! # Covariance

For a pivoted factorization `J P = Q R` the covariance is `(Jᵀ J)⁻¹`. Only the leading part of `R`
up to its numerical rank is inverted, and the parameters beyond it have covariance zero. The result
is in the order of the parameters and symmetric entry by entry.

It is computed in the place of `R`. The inverse `B` of the leading part replaces it column by
column, and then `B Bᵀ` replaces `B`, both on and above the diagonal. From there the entries are
carried to where they belong below the diagonal (`arrange`), and in the end back above it. -/

namespace NonlinearSolve

open Scalar

/-- The covariance of the parameters with the numerical rank it was computed for. -/
structure Covariance (α : Type) (n : Nat) where
  /-- The numerical rank. -/
  rank : Nat
  /-- The covariance matrix. -/
  matrix : Mat α n n

namespace Covariance

variable {α : Type} [Scalar α] {n : Nat}

/-- The number of diagonal entries of `r` before the first whose magnitude is at most `tol` times
that of the very first one. -/
def numericalRank (r : Mat α n n) (tol : α) : Nat :=
  match n, r with
  | 0, _ => 0
  | _ + 1, r => r.diagonal.toList.findIdx fun d => mag d ≤ tol * mag (r 0 0)

/-- Column `k` of the inverse of `r` from the columns before it, which `b` holds: on the diagonal
the reciprocal `t`, above it minus the products with column `k` of `r`. -/
def inverseColumn (r b : Mat α n n) (k : Fin n) : Vec α n :=
  let t := 1 / r k k
  Vec.of fun i =>
    if i < k then
      Fin.foldl n (fun s j => if i ≤ j ∧ j < k then s - t * r j k * b i j else s) 0
    else if i = k then t
    else r i k

/-- The inverse of the leading block of size `rank`, on and above the diagonal. -/
def inverse (r : Mat α n n) (rank : Nat) : Mat α n n :=
  Fin.foldl n (fun b k => if k.val < rank then b.setCol k (inverseColumn r b k) else b) r

/-- Adds the products of the entries of column `k` to the columns before it, and multiplies column
`k` by its entry on the diagonal. -/
def accumulate (b : Mat α n n) (k : Fin n) : Mat α n n :=
  Mat.of fun i j =>
    if i ≤ j ∧ j < k then b i j + b j k * b i k
    else if i ≤ j ∧ j = k then b i k * b k k
    else b i j

/-- `B Bᵀ` on and above the diagonal, for an upper triangular `B` with `rank` columns. -/
def gram (b : Mat α n n) (rank : Nat) : Mat α n n :=
  Fin.foldl n (fun b k => if k.val < rank then accumulate b k else b) b

/-- A matrix some of whose entries, on and above the diagonal, have been carried to the places of
their parameters. -/
structure Arranged (α : Type) (n : Nat) where
  /-- The entries in the order of the factor on and above the diagonal, and in the order of the
  parameters below it. -/
  matrix : Mat α n n
  /-- The diagonal in the order of the parameters. -/
  diag : Vec α n

/-- Carries the entry of the positions `i ≤ j` to its place below the diagonal. Positions beyond the
rank have the covariance zero. -/
def carry (order : Vec (Fin n) n) (rank : Nat) (b : Mat α n n) (i j : Fin n) : Mat α n n :=
  let b := if j.val < rank then b else b.set i j 0
  if order j < order i then b.set (order i) (order j) (b i j)
  else if order i < order j then b.set (order j) (order i) (b i j)
  else b

/-- Carries the entries of column `j`. -/
def carryColumn (order : Vec (Fin n) n) (rank : Nat) (s : Arranged α n) (j : Fin n) :
    Arranged α n :=
  let b := Fin.foldl n (fun b i => if i ≤ j then carry order rank b i j else b) s.matrix
  { matrix := b, diag := s.diag.set (order j) (b j j) }

/-- Carries all entries to the places of their parameters. -/
def arrange (b : Mat α n n) (order : Vec (Fin n) n) (rank : Nat) : Arranged α n :=
  Fin.foldl n (carryColumn order rank) { matrix := b, diag := Vec.zero n }

/-- The symmetric matrix in the order of the parameters. -/
def Arranged.symmetric (s : Arranged α n) : Mat α n n :=
  Mat.of fun i j => if i < j then s.matrix j i else if i = j then s.diag j else s.matrix i j

/-- The covariance that belongs to the triangular factor `r` with the column ordering `order`;
`tol` decides the numerical rank. -/
def ofFactor (r : Mat α n n) (order : Vec (Fin n) n) (tol : α) : Covariance α n :=
  let rank := numericalRank r tol
  { rank, matrix := (arrange (gram (inverse r rank) rank) order rank).symmetric }

end Covariance

end NonlinearSolve

import NonlinearSolve.Linear.Householder
import NonlinearSolve.Numerics

/-! # Factorization with column pivoting

`QR.factor` reduces a matrix `a` to upper trapezoidal form by one Householder reflection per column,
`a P = Q R`. With pivoting, every step first brings the column that has the largest norm below the
rows already finished into place, so the diagonal of `R` does not grow in magnitude.

The norms of the remaining columns are not recomputed in every step: `Elimination.downdate` takes
the entry that has become final out of the norm, and recomputes the norm only when that has become
inaccurate. -/

namespace NonlinearSolve

open Scalar

/-- A factored matrix. -/
structure QR (α : Type) (m n : Nat) where
  /-- `R` strictly above the diagonal and the reflections from the diagonal on. -/
  a : Mat α m n
  /-- Column `j` of the factored matrix is column `order j` of the given one. -/
  order : Vec (Fin n) n
  /-- The diagonal of `R`. -/
  rdiag : Vec α n
  /-- The norms of the columns of the given matrix. -/
  colNorm : Vec α n

/-- A matrix of which the first columns have been eliminated. In the columns still to come, `rdiag`
holds the norm of the part below the finished rows. -/
structure Elimination (α : Type) (m n : Nat) extends QR α m n where
  /-- For the columns still to come, the norm at the time when it was last computed afresh. -/
  reference : Vec α n

namespace Elimination

variable {α : Type} [Scalar α] {m n : Nat}

/-- Nothing eliminated yet. -/
def start (nm : Numerics α) (a : Mat α m n) : Elimination α m n :=
  let norms := Vec.of fun j => nm.vecNorm (a.col j)
  { a := a, order := Vec.identity n, rdiag := norms, colNorm := norms, reference := norms }

/-- The first of the columns from `j` on with the largest remaining norm. -/
def pivotColumn (e : Elimination α m n) (j : Fin n) : Fin n :=
  Fin.foldl n (fun best k => if j ≤ k ∧ e.rdiag best < e.rdiag k then k else best) j

/-- Exchanges two columns and all that is known about them. -/
def exchange (e : Elimination α m n) (j k : Fin n) : Elimination α m n :=
  { e with
    a := e.a.swapCols j k
    order := e.order.swap j k
    rdiag := e.rdiag.swap j k
    reference := e.reference.swap j k }

/-- The vector of the reflection that takes the part of `c` from row `i` on to a multiple of the
unit vector, `scale` being the norm of that part with the sign of its first entry. -/
def reflector (c : Vec α m) (i : Fin m) (scale : α) : Vec α m :=
  Vec.of fun r =>
    if r = i then c r / scale + 1 else if i < r then c r / scale else c r

/-- The norm of a column and its reference after row `i` of it has become final; `c` is the column
after the reflection. The norm is computed afresh if little of the reference is left. -/
def downdate (nm : Numerics α) (c : Vec α m) (i : Fin m) (norm reference : α) : α × α :=
  if norm == 0 then (norm, reference)
  else
    let t := c i / norm
    let rest := norm * sqrt (maxNum 0 (1 - t * t))
    -- little of the reference is left, so the difference has lost its digits
    if 0.05 * square (rest / reference) ≤ nm.epsilon then
      let fresh := nm.tailNorm c (i + 1)
      (fresh, fresh)
    else (rest, reference)

/-- Eliminates column `j` below its diagonal entry, which is in row `i`. -/
def reduce (nm : Numerics α) (pivot : Bool) (e : Elimination α m n) (i : Fin m) (j : Fin n) :
    Elimination α m n :=
  let norm := nm.tailNorm (e.a.col j) i
  if norm == 0 then
    { e with rdiag := e.rdiag.set j (-norm) }
  else
    let scale := if e.a i j < 0 then -norm else norm
    let w := reflector (e.a.col j) i scale
    let a := Mat.ofCols fun k =>
      if k = j then w
      else if j < k then Householder.reflect w i (e.a.col k)
      else e.a.col k
    let norms := Vec.of fun k =>
      if j < k ∧ pivot then downdate nm (a.col k) i (e.rdiag k) (e.reference k)
      else (e.rdiag k, e.reference k)
    { e with
      a := a
      rdiag := (norms.map Prod.fst).set j (-scale)
      reference := norms.map Prod.snd }

/-- One step: the exchange of columns, if there is pivoting, and the elimination of column `j`. -/
def step (nm : Numerics α) (pivot : Bool) (e : Elimination α m n) (i : Fin m) (j : Fin n) :
    Elimination α m n :=
  if pivot then (e.exchange j (e.pivotColumn j)).reduce nm pivot i j
  else e.reduce nm pivot i j

/-- The matrix `a` after `k` steps. -/
def after (nm : Numerics α) (pivot : Bool) (a : Mat α m n) : Nat → Elimination α m n
  | 0 => start nm a
  | k + 1 =>
    if h : k < m ∧ k < n then (after nm pivot a k).step nm pivot ⟨k, h.1⟩ ⟨k, h.2⟩
    else after nm pivot a k

end Elimination

namespace QR

variable {α : Type} [Scalar α] {m n : Nat}

/-- The factorization of `a`, with or without pivoting. -/
def factor (nm : Numerics α) (pivot : Bool) (a : Mat α m n) : QR α m n :=
  (Elimination.after nm pivot a (min m n)).toQR

end QR

end NonlinearSolve

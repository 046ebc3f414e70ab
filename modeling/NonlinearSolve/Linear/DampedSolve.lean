import NonlinearSolve.Linear.Mat
import NonlinearSolve.Linear.Rotation

/-! # Triangular systems with a diagonal block

Given `A P = Q R` and `Qᵀ b`, `dampedSolve` finds the least squares solution of `A x ≈ b` together
with `D x ≈ 0` for a diagonal `D`. The rows of `D` are folded one after the other into a copy of
`R`, which becomes the triangular matrix `S` with `Sᵀ S = Rᵀ R + Pᵀ D² P`; back substitution in `S`
then gives the solution.

The copy is kept transposed, in the same matrix as `R`: below the diagonal, where `R` has nothing,
and on the diagonal until the row of the same position has been folded in. For so long the diagonal
of `R` is put aside. -/

namespace NonlinearSolve

open Scalar

/-- A solution together with the factor it was computed from. -/
structure DampedSolution (α : Type) (n : Nat) where
  /-- The solution. -/
  x : Vec α n
  /-- The diagonal of `S`. -/
  sdiag : Vec α n
  /-- `R` on and above the diagonal, `Sᵀ` strictly below it. -/
  r : Mat α n n

namespace DampedSolve

variable {α : Type} [Scalar α] {n : Nat}

/-- The system after some rows of `D` have been folded in, in part perhaps the next one. -/
structure State (α : Type) (n : Nat) where
  /-- `R` above the diagonal and the copy, transposed, below it. The diagonal is that of `R` at the
  positions that are done, and that of the copy at the others. -/
  r : Mat α n n
  /-- The diagonal of `R`. -/
  rdiag : Vec α n
  /-- The diagonal of `S` at the positions that are done. At the others, what is left of the row of
  `D`. -/
  sdiag : Vec α n
  /-- The right hand side. -/
  rhs : Vec α n
  /-- What is left of the right hand side of that row, at first zero. -/
  residue : α

/-- `R` with its copy, and `Qᵀ b` as it is. Nothing below the diagonal of `r` is read. -/
def start (r : Mat α n n) (rhs : Vec α n) : State α n :=
  { r := Mat.of fun i j => if i ≤ j then r i j else r j i
    rdiag := r.diagonal
    sdiag := Vec.zero n
    rhs
    residue := 0 }

/-- Takes entry `k` of the row to zero, by a rotation that acts on column `k` of the matrix from the
diagonal on. The entry itself is not written any more. -/
def rotate (s : State α n) (k : Fin n) : State α n :=
  if s.sdiag k == 0 then s
  else
    let g := Rotation.annihilating (s.r k k) (s.sdiag k)
    let right := g.apply (s.rhs k) s.residue
    { s with
      r := s.r.setCol k <|
        Vec.of fun i => if k ≤ i then (g.apply (s.r i k) (s.sdiag i)).1 else s.r i k
      sdiag := Vec.of fun i => if k < i then (g.apply (s.r i k) (s.sdiag i)).2 else s.sdiag i
      rhs := s.rhs.set k right.1
      residue := right.2 }

/-- Folds in the row whose only entry is `d`, at position `j`. A zero row changes nothing. -/
def addRow (s : State α n) (j : Fin n) (d : α) : State α n :=
  if d == 0 then s
  else
    Fin.foldl n (fun s k => if j ≤ k then rotate s k else s)
      { s with
        sdiag := Vec.of fun i => if i < j then s.sdiag i else if i = j then d else 0
        residue := 0 }

/-- Position `j` is done: the diagonal entry of the copy there is that of `S`, and the one of `R`
takes its place. -/
def settle (s : State α n) (j : Fin n) : State α n :=
  { s with
    r := s.r.set j j (s.rdiag j)
    sdiag := s.sdiag.set j (s.r j j) }

/-- The system with all rows of `D` folded in, those of the first positions first. -/
def eliminate (r : Mat α n n) (order : Vec (Fin n) n) (diag rhs : Vec α n) : State α n :=
  Fin.foldl n (fun s j => settle (addRow s j (diag (order j))) j) (start r rhs)

/-- Solves `S z = w` by back substitution in the columns before `rank`, where `S` has the diagonal
`sdiag` and the transposed entries of `lower` above it; the other components of `z` are zero. -/
def backSubstitute (lower : Mat α n n) (sdiag : Vec α n) (rank : Nat) (w : Vec α n) : Vec α n :=
  Fin.foldr n (fun j z =>
    z.set j <|
      if j.val < rank then
        (z j - sumWhere (fun i => j < i ∧ i.val < rank) (fun i => lower i j * z i)) / sdiag j
      else 0) w

end DampedSolve

/-- The least squares solution of `A x ≈ b`, `D x ≈ 0`, where `A P = Q R`, `order` is the ordering
of `P`, `diag` the diagonal of `D` and `rhs` the first entries of `Qᵀ b`. If `S` is singular, the
components at and after its first zero diagonal entry are zero. -/
def dampedSolve {α : Type} [Scalar α] {n : Nat} (r : Mat α n n) (order : Vec (Fin n) n)
    (diag rhs : Vec α n) : DampedSolution α n :=
  let s := DampedSolve.eliminate r order diag rhs
  let z := DampedSolve.backSubstitute s.r s.sdiag s.sdiag.firstZero s.rhs
  { x := Vec.scatter order z, sdiag := s.sdiag, r := s.r }

end NonlinearSolve

import NonlinearSolve.Linear.Mat
import NonlinearSolve.Linear.Rotation

/-! # Adding a row to a triangular system

A least squares problem `R x ≈ b` with upper triangular `R` receives a further equation
`w · x ≈ α`. One rotation per column takes the entries of `w` to zero against the diagonal of `R`;
what is left of `α` is a residue that no `x` can change. Only entries on and above the diagonal of
`R` are read or written. -/

namespace NonlinearSolve

open Scalar

/-- A triangular system together with an equation that is being folded into it. -/
structure RowUpdate (α : Type) (n : Nat) where
  /-- The triangular matrix `R`. -/
  r : Mat α n n
  /-- The right hand side `b`. -/
  b : Vec α n
  /-- What is left of the new row. -/
  row : Vec α n
  /-- What is left of the new right hand side. -/
  residue : α
  /-- The rotations done so far, the identity in the columns still to come. -/
  rotations : Vec (Rotation α) n

namespace RowUpdate

variable {α : Type} [Scalar α] {n : Nat}

/-- The system before anything is folded in. -/
def start (r : Mat α n n) (b : Vec α n) (row : Vec α n) (residue : α) : RowUpdate α n :=
  { r, b, row, residue, rotations := Vec.const n .identity }

/-- Takes entry `j` of the new row to zero by a rotation with row `j` of `R`. If it is zero already,
the rotation is the identity and the diagonal and the right hand side are not touched. -/
def step (s : RowUpdate α n) (j : Fin n) : RowUpdate α n :=
  let wj := s.row j
  let done := wj == 0
  let g := if done then Rotation.identity else .annihilating (s.r j j) wj
  let pairs := Vec.of fun k =>
    if j < k ∨ (k = j ∧ !done) then g.apply (s.r j k) (s.row k) else (s.r j k, s.row k)
  let right := if done then (s.b j, s.residue) else g.apply (s.b j) s.residue
  { r := s.r.setRow j (pairs.map Prod.fst)
    row := pairs.map Prod.snd
    b := s.b.set j right.1
    residue := right.2
    rotations := s.rotations.set j g }

end RowUpdate

/-- The triangular system `R x ≈ b` with the equation `w · x ≈ α` folded in. -/
def rowUpdate {α : Type} [Scalar α] {n : Nat} (r : Mat α n n) (w b : Vec α n) (residue : α) :
    RowUpdate α n :=
  Fin.foldl n RowUpdate.step (.start r b w residue)

end NonlinearSolve

import NonlinearSolve.Numerics
import NonlinearSolve.Problem

/-! # Forward differences

Column `j` of the Jacobian is approximated by `(f (x + h eⱼ) - f x) / h`. A sweep displaces the
unknowns in groups, with one evaluation for each group: `ForwardDifference.dense` displaces one
unknown at a time; `ForwardDifference.banded` displaces all unknowns of one residue class at once,
which for a banded Jacobian are so far apart that no residual depends on two of them.

The unknowns are displaced in place and put back after every evaluation. If an evaluation aborts,
the sweep ends there. The columns of the groups before it are new and all others are as they
were. -/

namespace NonlinearSolve

namespace ForwardDifference

open Scalar

variable {σ α : Type} [Scalar α] {m n : Nat}

/-- The displacement relative to the magnitude of an unknown: the square root of the relative error
`epsfcn` of the residuals, which is not below the precision of the arithmetic. -/
def relativeStep (nm : Numerics α) (epsfcn : α) : α := sqrt (maxNum epsfcn nm.epsilon)

/-- The displacement of an unknown with the value `x`. -/
def displacement (eps x : α) : α :=
  let h := eps * mag x
  if h == 0 then eps else h

/-- The point `x` with the unknowns of a group displaced. -/
def displaced (eps : α) (group : Fin n → Bool) (x : Vec α n) : Vec α n :=
  Vec.of fun j => if group j then x j + displacement eps (x j) else x j

/-- The point `x` with the unknowns of a group put back to their values in `saved`. -/
def restored (group : Fin n → Bool) (saved x : Vec α n) : Vec α n :=
  Vec.of fun j => if group j then saved j else x j

/-- The difference quotients in column `j` for the residuals `f` at a displaced point. -/
def quotients (eps : α) (x : Vec α n) (fvec f : Vec α m) (j : Fin n) : Vec α m :=
  let h := displacement eps (x j)
  Vec.of fun i => (f i - fvec i) / h

/-- How the entries of a column are written: from the number of the column, its difference quotients
and its old entries. -/
abbrev Writer (α : Type) (m n : Nat) := Fin n → Vec α m → Vec α m → Vec α m

/-- The matrix `a` with the columns of a group written from the residuals `f` at the point where
that group is displaced. -/
def fill (eps : α) (write : Writer α m n) (x : Vec α n) (fvec f : Vec α m) (group : Fin n → Bool)
    (a : Mat α m n) : Mat α m n :=
  Mat.ofCols fun j =>
    if group j then write j (quotients eps x fvec f j) (a.col j) else a.col j

/-- Goes through a list of groups. Each group is displaced within `x` itself and put back after the
evaluation, whether that aborts or not. The result tells whether an evaluation aborted, and what has
become of the unknowns and of the matrix. -/
def sweep (p : Problem σ α m n) (eps : α) (write : Writer α m n) (fvec : Vec α m) :
    List (Fin n → Bool) → Vec α n → Mat α m n → σ →
      Except Abort Unit × Vec α n × Mat α m n × σ
  | [], x, a, s => (.ok (), x, a, s)
  | group :: groups, x, a, s =>
    let y := displaced eps group x
    match p.evaluate y s with
    | (.error e, s) => (.error e, restored group x y, a, s)
    | (.ok f, s) =>
      let x := restored group x y
      sweep p eps write fvec groups x (fill eps write x fvec f group a) s

/-- The groups of one unknown each. -/
def singletons (n : Nat) : List (Fin n → Bool) :=
  (List.finRange n).map fun j k => k == j

/-- The groups of the unknowns with equal remainder modulo `k`. -/
def residueClasses (n k : Nat) : List (Fin n → Bool) :=
  (List.range k).map fun c j => j.val % k == c

/-- Approximates the Jacobian at `x`, where the residuals are `fvec`, with one evaluation for every
column. -/
def dense (p : Problem σ α m n) (nm : Numerics α) (epsfcn : α) (x : Vec α n) (fvec : Vec α m)
    (a : Mat α m n) (s : σ) : Except Abort Unit × Vec α n × Mat α m n × σ :=
  sweep p (relativeStep nm epsfcn) (fun _ q _ => q) fvec (singletons n) x a s

/-- The number of evaluations for a band of `ml` subdiagonals and `mu` superdiagonals, unless the
matrix is narrower. -/
def bandWidth (ml mu : Nat) : Nat := ml + mu + 1

/-- Writes a column of a banded matrix, which is zero outside the band. Rows below the leading
square block belong to no band and keep their entries. -/
def writeBand (ml mu : Nat) : Writer α m n := fun j q old =>
  Vec.of fun i =>
    if i.val < n then
      if j.val ≤ i.val + mu ∧ i.val ≤ j.val + ml then q i else 0
    else old i

/-- Approximates a Jacobian with `ml` subdiagonals and `mu` superdiagonals. A band that is as wide
as the matrix saves nothing and is treated as dense. -/
def banded (p : Problem σ α m n) (nm : Numerics α) (ml mu : Nat) (epsfcn : α) (x : Vec α n)
    (fvec : Vec α m) (a : Mat α m n) (s : σ) : Except Abort Unit × Vec α n × Mat α m n × σ :=
  if n ≤ bandWidth ml mu then dense p nm epsfcn x fvec a s
  else
    let groups := residueClasses n (bandWidth ml mu)
    sweep p (relativeStep nm epsfcn) (writeBand ml mu) fvec groups x a s

end ForwardDifference

end NonlinearSolve

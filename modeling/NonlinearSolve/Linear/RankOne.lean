import NonlinearSolve.Linear.Rotation
import NonlinearSolve.Linear.Trapezoid

/-! # Rank-one updates

`Trapezoid.rankOne` makes `S + u vᵀ` trapezoidal again. Two sequences of rotations act from the
right, each rotation on one column and the last one. The first sequence turns `v` into a multiple of
the last unit vector, so that the update only adds to the last column, which by then reaches above
the diagonal. The second sequence removes what is above the diagonal there.

The rotations are kept by their codes, a zero standing for a step that was skipped, and
`ColumnRotations.apply` does them again on any other matrix. -/

namespace NonlinearSolve

open Scalar

/-- The codes of the two sequences of rotations for `n` columns, one rotation of each for every
column but the last. -/
structure ColumnRotations (α : Type) (n : Nat) where
  /-- The first sequence, which is done from the last column to the first. -/
  first : Vec α (n - 1)
  /-- The second sequence, which is done from the first column to the last. -/
  second : Vec α (n - 1)

namespace ColumnRotations

variable {α : Type} [Scalar α] {r k : Nat}

/-- Combines column `j` with the last column, entry by entry. -/
def combine (f : α → α → α × α) (a : Mat α r (k + 1)) (j : Fin k) : Mat α r (k + 1) :=
  let pairs := Vec.of fun i => f (a i j.castSucc) (a i (Fin.last k))
  (a.setCol j.castSucc (pairs.map Prod.fst)).setCol (Fin.last k) (pairs.map Prod.snd)

/-- The product of `a` with the rotations, from the right. -/
def apply : {n : Nat} → ColumnRotations α n → Mat α r n → Mat α r n
  | 0, _, a => a
  | k + 1, q, a =>
    let a := Fin.foldr k (fun j a => combine (Rotation.decode (q.first j)).applyInverse a j) a
    Fin.foldl k (fun a j => combine (Rotation.decode (q.second j)).apply a j) a

/-- The product of the row `b` with the rotations, from the right. -/
def applyRow {n : Nat} (q : ColumnRotations α n) (b : Vec α n) : Vec α n :=
  (q.apply (Mat.ofRow b)).row 0

end ColumnRotations

/-- The result of a rank-one update. -/
structure RankOne (α : Type) [Scalar α] (m n : Nat) where
  /-- The updated trapezoid. -/
  s : Trapezoid α m n
  /-- The rotations that were needed. -/
  rotations : ColumnRotations α n
  /-- Whether the updated trapezoid has a zero on its diagonal. -/
  singular : Bool

namespace RankOne

variable {α : Type} [Scalar α] {m k : Nat}

/-- A rank-one update on its way, for a trapezoid with `k + 1` columns. -/
structure State (α : Type) [Scalar α] (m k : Nat) where
  /-- The trapezoid, but for its last column. -/
  s : Trapezoid α m (k + 1)
  /-- The last column, which may reach above the diagonal. -/
  spike : Vec α m
  /-- The last entry of `v`. -/
  last : α
  /-- The codes of the first sequence; in columns not yet done, the entries of `v`. -/
  first : Vec α k
  /-- The codes of the second sequence. -/
  second : Vec α k
  /-- Whether a zero has appeared on the diagonal. -/
  singular : Bool

/-- The row of the diagonal entry in column `j`, one of the columns before the last. -/
def diagonalRow (h : k + 1 ≤ m) (j : Fin k) : Fin m := j.castSucc.castLE h

/-- Nothing rotated yet. -/
def start (s : Trapezoid α m (k + 1)) (v : Vec α (k + 1)) : State α m k :=
  { s
    spike := s.full.col (Fin.last k)
    last := v (Fin.last k)
    first := Vec.of fun j => v j.castSucc
    second := Vec.zero k
    singular := false }

/-- Combines column `j` and the spike, from the diagonal on. -/
def combine (f : α → α → α × α) (t : State α m k) (j : Fin k) : State α m k :=
  let pairs := Vec.of fun i =>
    if j.val ≤ i.val then f (t.s i j.castSucc) (t.spike i) else (t.s i j.castSucc, t.spike i)
  { t with s := t.s.setCol j.castSucc (pairs.map Prod.fst), spike := pairs.map Prod.snd }

/-- A step of the first sequence: takes entry `j` of `v` to zero. -/
def collect (nm : Numerics α) (j : Fin k) (t : State α m k) : State α m k :=
  let vj := t.first j
  if vj == 0 then t
  else
    let g := Rotation.annihilating t.last vj
    { combine g.applyInverse t j with
      last := (g.applyInverse vj t.last).2
      first := t.first.set j (Rotation.encode nm t.last vj) }

/-- Adds the update, which by now only concerns the last column. -/
def addSpike (u : Vec α m) (t : State α m k) : State α m k :=
  { t with spike := Vec.of fun i => t.spike i + t.last * u i }

/-- A step of the second sequence: takes the entry of the spike in row `j` to zero. -/
def eliminate (nm : Numerics α) (h : k + 1 ≤ m) (t : State α m k) (j : Fin k) : State α m k :=
  let i := diagonalRow h j
  let d := t.s i j.castSucc
  let wj := t.spike i
  let t :=
    if wj == 0 then { t with second := t.second.set j wj }
    else
      { combine (Rotation.annihilating d wj).apply t j with
        second := t.second.set j (Rotation.encode nm d wj) }
  { t with singular := t.singular || t.s i j.castSucc == 0 }

/-- The result, with the spike back in the last column. -/
def finish (h : k + 1 ≤ m) (t : State α m k) : RankOne α m (k + 1) :=
  { s := t.s.setCol (Fin.last k) t.spike
    rotations := ⟨t.first, t.second⟩
    singular := t.singular || t.spike ((Fin.last k).castLE h) == 0 }

end RankOne

/-- Makes `S + u vᵀ` trapezoidal by rotations from the right. -/
def Trapezoid.rankOne {α : Type} [Scalar α] {m : Nat} (nm : Numerics α) :
    {n : Nat} → n ≤ m → Trapezoid α m n → Vec α m → Vec α n → RankOne α m n
  | 0, _, s, _, _ => { s, rotations := ⟨Vec.zero 0, Vec.zero 0⟩, singular := false }
  | k + 1, h, s, u, v =>
    let t := Fin.foldr k (RankOne.collect nm) (RankOne.start s v)
    -- all of `v` is now in its last entry
    let t := Fin.foldl k (RankOne.eliminate nm h) (RankOne.addSpike u t)
    RankOne.finish h t

end NonlinearSolve

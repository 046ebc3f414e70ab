import NonlinearSolve.Linear.Mat

/-! # Householder reflections

A reflection of the rows from `k` on is given by a vector `w` whose entry `w k` also holds its
scale: it is `I - w wᵀ / w k`, restricted to those rows. A factored matrix keeps the reflection that
eliminated column `j` in that column, from the diagonal on; a zero on the diagonal says that there
was nothing to eliminate. The product of these reflections is the orthogonal factor `Q`, which
`applyTranspose` applies to a vector without forming it and `orthogonalFactor` forms. -/

namespace NonlinearSolve

namespace Householder

open Scalar

variable {α : Type} [Scalar α] {m n : Nat}

/-- The reflection of `c` by `w`, in the rows from `k` on. -/
def reflect (w : Vec α m) (k : Fin m) (c : Vec α m) : Vec α m :=
  let t := sumWhere (k ≤ ·) (fun i => w i * c i) / w k
  Vec.of fun i => if k ≤ i then c i - t * w i else c i

/-- Applies the reflections kept in the columns of `a` to `b`, the first one first. -/
def applyTranspose (a : Mat α m n) (b : Vec α m) : Vec α m :=
  Fin.foldl n (fun b j =>
    if h : j.val < m then
      if a ⟨j, h⟩ j == 0 then b else reflect (a.col j) ⟨j, h⟩ b
    else b) b

/-- Puts the reflection kept in column `j` of `a` in front of the product `q` of the later ones.
Those leave the columns of `q` before `j` alone, and so does this one. -/
def accumulate (a : Mat α m n) (j : Fin n) (q : Mat α m m) : Mat α m m :=
  if h : j.val < m then
    if a ⟨j, h⟩ j == 0 then q
    else Mat.ofCols fun k =>
      if j.val ≤ k.val then reflect (a.col j) ⟨j, h⟩ (q.col k) else q.col k
  else q

/-- The orthogonal factor, the product of the reflections kept in the columns of `a`. -/
def orthogonalFactor (a : Mat α m n) : Mat α m m :=
  Fin.foldr n (accumulate a) (Mat.identity m)

end Householder

end NonlinearSolve

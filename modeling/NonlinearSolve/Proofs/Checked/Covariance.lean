import NonlinearSolve.Proofs.Checked.Operations
import NonlinearSolve.Proofs.Linear.Covariances

/-! # Checked covariance

The covariance of a factor written with checked operations. The only divisions are those by the
diagonal entries of the leading block. An entry that counts for the numerical rank is larger than a
multiple of another magnitude, so it is not zero unless the tolerance is negative, and the
computation comes to an end (`ofFactor?_eq`). -/

namespace NonlinearSolve

open Scalar

namespace Covariance

/-! ### Algorithms -/

section Algorithms

variable {α : Type} [Scalar α] {n : Nat}

/-- `inverseColumn` with checked operations. -/
def inverseColumn? (r b : Mat α n n) (k : Fin n) : Option (Vec α n) := do
  let t ← div? 1 (r k k)
  return Vec.of fun i =>
    if i < k then
      Fin.foldl n (fun s j => if i ≤ j ∧ j < k then s - t * r j k * b i j else s) 0
    else if i = k then t
    else r i k

/-- `inverse` with checked operations. -/
def inverse? (r : Mat α n n) (rank : Nat) : Option (Mat α n n) :=
  Fin.foldlM n (fun b k =>
    if k.val < rank then do
      let c ← inverseColumn? r b k
      return b.setCol k c
    else some b) r

/-- `ofFactor` with checked operations. -/
def ofFactor? (r : Mat α n n) (order : Vec (Fin n) n) (tol : α) : Option (Covariance α n) := do
  let rank := numericalRank r tol
  let b ← inverse? r rank
  return { rank, matrix := (arrange (gram b rank) order rank).symmetric }

end Algorithms

variable {n : Nat} {r : Mat ℝ n n}

/-! ### The computation -/

/-- A column of the inverse divides by its own pivot only. -/
theorem inverseColumn?_eq {k : Fin n} (hk : r k k ≠ 0) (b : Mat ℝ n n) :
    inverseColumn? r b k = some (inverseColumn r b k) := by
  unfold inverseColumn?
  rw [div?_eq _ hk]
  rfl

/-- Inverting the leading block is checked as long as its pivots are nonzero. -/
theorem inverse?_eq {l : Nat} (hdiag : ∀ k : Fin n, k.val < l → r k k ≠ 0) :
    inverse? r l = some (inverse r l) := by
  refine foldlM_eq ?_ _
  intro b k
  by_cases hk : k.val < l
  · rw [if_pos hk, if_pos hk, inverseColumn?_eq (hdiag k hk)]
    rfl
  · rw [if_neg hk, if_neg hk]

/-- The computation of a covariance never fails. -/
theorem ofFactor?_eq {tol : ℝ} (htol : 0 ≤ tol) (order : Vec (Fin n) n) :
    ofFactor? r order tol = some (ofFactor r order tol) := by
  have hinverse : inverse? r (numericalRank r tol) = some (inverse r (numericalRank r tol)) :=
    inverse?_eq fun k hk => ne_zero_of_lt_numericalRank htol hk
  simp only [ofFactor?, hinverse]
  rfl

end Covariance

end NonlinearSolve

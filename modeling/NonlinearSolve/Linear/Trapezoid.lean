import NonlinearSolve.Linear.Mat

/-! # Lower trapezoidal matrices

A lower trapezoid is a matrix without entries above the diagonal. Its packed form lists the other
entries column by column. The packed form of a square lower triangle is also the list of the entries
of its transpose, an upper triangle, row by row. -/

namespace NonlinearSolve

/-- A matrix that is zero above the diagonal. -/
structure Trapezoid (α : Type) [Scalar α] (m n : Nat) where
  /-- The matrix with its zeros. -/
  full : Mat α m n
  /-- There is nothing above the diagonal. -/
  above : ∀ i j, i.val < j.val → full i j = 0

namespace Trapezoid

variable {α : Type} [Scalar α] {m n : Nat}

/-- The entry in row `i` and column `j`. -/
def get (t : Trapezoid α m n) (i : Fin m) (j : Fin n) : α := t.full i j

/-- A trapezoid is read as a function of its row and column index. -/
instance : CoeFun (Trapezoid α m n) fun _ => Fin m → Fin n → α := ⟨get⟩

/-- The trapezoid whose entries on and below the diagonal are the `f i j`. -/
def of (f : Fin m → Fin n → α) : Trapezoid α m n where
  full := Mat.of fun i j => if i.val < j.val then 0 else f i j
  above i j h := by simp [h]

/-- The entries of `of f`. -/
@[simp] theorem of_apply (f : Fin m → Fin n → α) (i : Fin m) (j : Fin n) :
    of f i j = if i.val < j.val then 0 else f i j := by
  simp [of, get]

/-- The entries of the underlying matrix. -/
@[simp] theorem full_apply (t : Trapezoid α m n) (i : Fin m) (j : Fin n) :
    t.full i j = t i j := rfl

/-- Above the diagonal a trapezoid is zero. -/
theorem apply_of_lt (t : Trapezoid α m n) {i : Fin m} {j : Fin n} (h : i.val < j.val) :
    t i j = 0 :=
  t.above i j h

/-- Trapezoids with the same entries are equal. -/
@[ext] theorem ext {s t : Trapezoid α m n} (h : ∀ i j, s i j = t i j) : s = t := by
  obtain ⟨s, hs⟩ := s
  obtain ⟨t, ht⟩ := t
  congr 1
  exact Mat.ext h

/-- The trapezoid of zeros. -/
def zero (m n : Nat) : Trapezoid α m n := of fun _ _ => 0

/-- Every entry of the trapezoid of zeros is zero. -/
@[simp] theorem zero_apply (i : Fin m) (j : Fin n) : (zero m n : Trapezoid α m n) i j = 0 := by
  simp [zero]

/-- The trapezoid with column `j` replaced by `c`, as far as it is not above the diagonal. -/
def setCol (t : Trapezoid α m n) (j : Fin n) (c : Vec α m) : Trapezoid α m n :=
  of fun i k => if k = j then c i else t i k

/-- Replacing column `j` changes the entries of that column on and below the diagonal. -/
theorem setCol_apply (t : Trapezoid α m n) (j k : Fin n) (c : Vec α m) (i : Fin m) :
    t.setCol j c i k = if k = j ∧ k.val ≤ i.val then c i else t i k := by
  by_cases h : i.val < k.val
  · simp [setCol, h, Nat.not_le.2 h, t.apply_of_lt h]
  · simp [setCol, h, Nat.not_lt.1 h]

/-! ### The packed form -/

/-- The entries on and below the diagonal, column by column. -/
def toPacked (t : Trapezoid α m n) : List α :=
  (List.finRange n).flatMap fun j => (t.full.col j).toList.drop j

/-- The trapezoid with the given packed form. -/
def ofPacked (m n : Nat) (l : List α) : Trapezoid α m n :=
  of fun i j => l.getD (j.val * (2 * m - j.val + 1) / 2 + (i.val - j.val)) 0

end Trapezoid

end NonlinearSolve

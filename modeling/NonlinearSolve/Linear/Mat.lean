import NonlinearSolve.Linear.Vec

/-! # Matrices

`Mat α m n` is an `m × n` matrix stored by columns. It is read like a function of its row and column
index, `a i j`, and built by `Mat.of` from such a function or by `Mat.ofCols` from its columns.

Several algorithms work in the leading square block of a matrix with more rows than columns:
`leading` takes it out and `withLeading` puts it back. -/

namespace NonlinearSolve

/-- A matrix with `m` rows and `n` columns, held in memory column by column. -/
structure Mat (α : Type) (m n : Nat) where
  /-- The columns from the first to the last. -/
  cols : Vec (Vec α m) n

namespace Mat

variable {α : Type} {m n : Nat}

/-- The entry in row `i` and column `j`. -/
def get (a : Mat α m n) (i : Fin m) (j : Fin n) : α := a.cols j i

/-- A matrix is read as a function of its row and column index. -/
instance : CoeFun (Mat α m n) fun _ => Fin m → Fin n → α := ⟨get⟩

/-- The matrix with the columns `c 0, c 1, …`, each computed once. -/
def ofCols (c : Fin n → Vec α m) : Mat α m n := ⟨Vec.of c⟩

/-- The matrix with the entries `f i j`, each computed once. -/
def of (f : Fin m → Fin n → α) : Mat α m n := ofCols fun j => Vec.of fun i => f i j

/-- Column `j` of a matrix. -/
def col (a : Mat α m n) (j : Fin n) : Vec α m := a.cols j

/-- The entries of a column are those of the matrix. -/
@[simp] theorem col_apply (a : Mat α m n) (i : Fin m) (j : Fin n) : a.col j i = a i j := rfl

/-- Entry `(i, j)` of a matrix given by columns is entry `i` of column `j`. -/
@[simp] theorem ofCols_apply (c : Fin n → Vec α m) (i : Fin m) (j : Fin n) :
    ofCols c i j = c j i := by
  simp [ofCols, get]

/-- Column `j` of a matrix given by columns. -/
@[simp] theorem col_ofCols (c : Fin n → Vec α m) (j : Fin n) : (ofCols c).col j = c j := by
  simp [ofCols, col]

/-- Entry `(i, j)` of `of f` is `f i j`. -/
@[simp] theorem of_apply (f : Fin m → Fin n → α) (i : Fin m) (j : Fin n) : of f i j = f i j := by
  simp [of]

/-- Matrices with the same entries are equal. -/
@[ext] theorem ext {a b : Mat α m n} (h : ∀ i j, a i j = b i j) : a = b := by
  obtain ⟨a⟩ := a
  obtain ⟨b⟩ := b
  congr 1
  ext j i
  exact h i j

/-- The matrix whose entries are all `x`. -/
def const (m n : Nat) (x : α) : Mat α m n := ofCols fun _ => Vec.const m x

/-- Every entry of a constant matrix is its value. -/
@[simp] theorem const_apply (x : α) (i : Fin m) (j : Fin n) : const m n x i j = x := by
  simp [const]

/-- The matrix with column `j` replaced by `c`. -/
def setCol (a : Mat α m n) (j : Fin n) (c : Vec α m) : Mat α m n := ⟨a.cols.set j c⟩

/-- Replacing column `j` changes that column and no other. -/
@[simp] theorem setCol_apply (a : Mat α m n) (j k : Fin n) (c : Vec α m) (i : Fin m) :
    a.setCol j c i k = if k = j then c i else a i k := by
  by_cases h : k = j <;> simp [setCol, get, h]

/-- The matrix with the entry in row `i` and column `j` replaced by `x`. -/
def set (a : Mat α m n) (i : Fin m) (j : Fin n) (x : α) : Mat α m n :=
  a.setCol j ((a.col j).set i x)

/-- Replacing an entry changes that entry and no other. -/
@[simp] theorem set_apply (a : Mat α m n) (i k : Fin m) (j l : Fin n) (x : α) :
    a.set i j x k l = if k = i ∧ l = j then x else a k l := by
  by_cases hl : l = j <;> simp [set, hl]

/-- The matrix with the columns `j` and `k` exchanged. -/
def swapCols (a : Mat α m n) (j k : Fin n) : Mat α m n := ⟨a.cols.swap j k⟩

/-- Row `i` of a matrix. -/
def row (a : Mat α m n) (i : Fin m) : Vec α n := Vec.of fun j => a i j

/-- The entries of a row are those of the matrix. -/
@[simp] theorem row_apply (a : Mat α m n) (i : Fin m) (j : Fin n) : a.row i j = a i j := by
  simp [row]

/-- The matrix with row `i` replaced by `v`. -/
def setRow (a : Mat α m n) (i : Fin m) (v : Vec α n) : Mat α m n :=
  ofCols fun j => (a.col j).set i (v j)

/-- Replacing row `i` changes that row and no other. -/
@[simp] theorem setRow_apply (a : Mat α m n) (i k : Fin m) (v : Vec α n) (j : Fin n) :
    a.setRow i v k j = if k = i then v j else a k j := by
  simp [setRow]

/-- The matrix with the single row `v`. -/
def ofRow (v : Vec α n) : Mat α 1 n := of fun _ j => v j

/-- The entries of a one-row matrix are those of its row. -/
@[simp] theorem ofRow_apply (v : Vec α n) (i : Fin 1) (j : Fin n) : ofRow v i j = v j := by
  simp [ofRow]

/-- The entries column by column. -/
def toList (a : Mat α m n) : List α := a.cols.toList.flatMap Vec.toList

/-- The matrix whose entries are listed column by column, completed by `d`. -/
def ofList (m n : Nat) (d : α) (l : List α) : Mat α m n :=
  ofCols fun j => Vec.ofList m d (l.drop (j * m))

/-! ### The leading square block -/

/-- The first `n` rows of a matrix with at least `n` rows. -/
def leading (h : n ≤ m) (a : Mat α m n) : Mat α n n := of fun i j => a (i.castLE h) j

/-- The leading block has the entries of the matrix. -/
@[simp] theorem leading_apply (h : n ≤ m) (a : Mat α m n) (i j : Fin n) :
    a.leading h i j = a (i.castLE h) j := by
  simp [leading]

/-- The matrix with its first `n` rows replaced by those of `b`. -/
def withLeading (a : Mat α m n) (b : Mat α n n) : Mat α m n :=
  of fun i j => if h : i.val < n then b ⟨i, h⟩ j else a i j

/-- The leading block of `withLeading a b` is `b`. -/
@[simp] theorem leading_withLeading (h : n ≤ m) (a : Mat α m n) (b : Mat α n n) :
    (a.withLeading b).leading h = b := by
  ext i j
  simp [withLeading]

/-- The matrix with the diagonal entries `d 0, d 1, …`, as far as it has a diagonal. -/
def withDiagonal (a : Mat α m n) (d : Vec α n) : Mat α m n :=
  of fun i j => if i.val = j.val then d j else a i j

/-- Replacing the diagonal leaves the other entries alone. -/
@[simp] theorem withDiagonal_apply (a : Mat α m n) (d : Vec α n) (i : Fin m) (j : Fin n) :
    a.withDiagonal d i j = if i.val = j.val then d j else a i j := by
  simp [withDiagonal]

/-- The diagonal of a square matrix. -/
def diagonal (a : Mat α n n) : Vec α n := Vec.of fun j => a j j

/-- The entries of the diagonal. -/
@[simp] theorem diagonal_apply (a : Mat α n n) (j : Fin n) : a.diagonal j = a j j := by
  simp [diagonal]

/-- The entries on and above the diagonal, row by row. -/
def upperRows (a : Mat α n n) : List α :=
  (List.finRange n).flatMap fun i => (a.row i).toList.drop i

section Scalar

variable [Scalar α]

/-- The matrix of zeros. -/
def zero (m n : Nat) : Mat α m n := const m n 0

/-- Every entry of the matrix of zeros is zero. -/
@[simp] theorem zero_apply (i : Fin m) (j : Fin n) : (zero m n : Mat α m n) i j = 0 := by
  simp [zero]

/-- The identity matrix. -/
def identity (n : Nat) : Mat α n n := of fun i j => if i = j then 1 else 0

/-- The entries of the identity matrix. -/
@[simp] theorem identity_apply (i j : Fin n) :
    (identity n : Mat α n n) i j = if i = j then 1 else 0 := by
  simp [identity]

end Scalar

end Mat

end NonlinearSolve

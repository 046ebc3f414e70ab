import NonlinearSolve.Scalar

/-! # Vectors

`Vec α n` is a vector of `n` stored entries. It is read like a function of its index, `v i`, and
built from one by `Vec.of`, which computes every entry once; the two are inverse to each other
(`Vec.of_apply`, `Vec.of_coe`), so a statement about vectors is one about functions `Fin n → α`. -/

namespace NonlinearSolve

/-- A vector of `n` entries, held in memory. -/
structure Vec (α : Type) (n : Nat) where
  /-- The stored entries. -/
  entries : Vector α n

namespace Vec

variable {α β : Type} {n : Nat}

/-- Entry `i` of a vector. -/
def get (v : Vec α n) (i : Fin n) : α := v.entries[i]

/-- A vector is read as a function of its index. -/
instance : CoeFun (Vec α n) fun _ => Fin n → α := ⟨get⟩

/-- The vector with the entries `f 0, f 1, …`, each computed once. -/
def of (f : Fin n → α) : Vec α n := ⟨Vector.ofFn f⟩

/-- Entry `i` of `of f` is `f i`. -/
@[simp] theorem of_apply (f : Fin n → α) (i : Fin n) : of f i = f i := by
  simp [of, get]

/-- Vectors with the same entries are equal. -/
@[ext] theorem ext {v w : Vec α n} (h : ∀ i, v i = w i) : v = w := by
  obtain ⟨v⟩ := v
  obtain ⟨w⟩ := w
  congr 1
  exact Vector.ext fun i hi => h ⟨i, hi⟩

/-- Every vector is built from its entries. -/
@[simp] theorem of_coe (v : Vec α n) : of (fun i => v i) = v := by
  ext i
  simp

/-- The vector whose entries are all `x`. -/
def const (n : Nat) (x : α) : Vec α n := of fun _ => x

/-- Every entry of a constant vector is its value. -/
@[simp] theorem const_apply (x : α) (i : Fin n) : const n x i = x := by
  simp [const]

/-- The vector with entry `i` replaced by `x`. -/
def set (v : Vec α n) (i : Fin n) (x : α) : Vec α n := ⟨v.entries.set i x⟩

/-- Replacing entry `i` changes that entry and no other. -/
@[simp] theorem set_apply (v : Vec α n) (i j : Fin n) (x : α) :
    v.set i x j = if j = i then x else v j := by
  by_cases h : j = i
  · subst h
    simp [set, get]
  · have h' : (i : Nat) ≠ j := fun e => h (Fin.ext e.symm)
    simp [set, get, h, h']

/-- The vector of the values of `f` at the entries. -/
def map (f : α → β) (v : Vec α n) : Vec β n := of fun i => f (v i)

/-- The entries of a map are the mapped entries. -/
@[simp] theorem map_apply (f : α → β) (v : Vec α n) (i : Fin n) : v.map f i = f (v i) := by
  simp [map]

/-- The vector with the entries `i` and `j` exchanged. -/
def swap (v : Vec α n) (i j : Fin n) : Vec α n := (v.set i (v j)).set j (v i)

/-- An exchange moves two entries and no other. -/
theorem swap_apply (v : Vec α n) (i j k : Fin n) :
    v.swap i j k = if k = j then v i else if k = i then v j else v k := by
  simp [swap]

/-- The entries from the first to the last. -/
def toList (v : Vec α n) : List α := v.entries.toList

/-- The list of entries has one element per index. -/
@[simp] theorem length_toList (v : Vec α n) : v.toList.length = n := by
  simp [toList]

/-- Element `i` of the list of entries is entry `i`. -/
theorem getElem_toList (v : Vec α n) (i : Fin n) (h : i.val < v.toList.length) :
    v.toList[i.val] = v i := by
  simp [toList, get]

/-- The first `n` elements of a list, completed by `d` if there are fewer. -/
def ofList (n : Nat) (d : α) (l : List α) : Vec α n := of fun i => l.getD i d

/-- The vector of the elements of `v.toList` is `v`. -/
@[simp] theorem ofList_toList (v : Vec α n) (d : α) : ofList n d v.toList = v := by
  ext i
  simp only [ofList, of_apply]
  simp [toList, get]

section Scalar

variable [Scalar α]

/-- The vector of zeros. -/
def zero (n : Nat) : Vec α n := const n 0

/-- Every entry of the vector of zeros is zero. -/
@[simp] theorem zero_apply (i : Fin n) : (zero n : Vec α n) i = 0 := by
  simp [zero]

/-- A constant vector with entries is zero only if they are. -/
theorem const_ne_zero (hn : 0 < n) {a : α} (ha : a ≠ 0) : const n a ≠ zero n := by
  intro h
  have hentry := congrArg (fun v : Vec α n => v ⟨0, hn⟩) h
  simp only [const_apply, zero_apply] at hentry
  exact ha hentry

/-- The product of the diagonal matrix with diagonal `d` and the vector `v`. -/
def diagMul (d v : Vec α n) : Vec α n := of fun i => d i * v i

/-- Entry `i` of the product with a diagonal matrix. -/
@[simp] theorem diagMul_apply (d v : Vec α n) (i : Fin n) : d.diagMul v i = d i * v i := by
  simp [diagMul]

/-- Constant vectors multiply entry by entry to a constant vector. -/
theorem diagMul_const (a b : α) : (const n a).diagMul (const n b) = const n (a * b) := by
  ext i
  rw [diagMul_apply, const_apply, const_apply, const_apply]

/-- The position of the first entry that is zero, or `n` if there is none. -/
def firstZero (v : Vec α n) : Nat := v.toList.findIdx fun x => x == 0

end Scalar

/-! ### The leading entries -/

/-- The first `n` entries of a vector with at least `n` entries. -/
def leading {m : Nat} (h : n ≤ m) (v : Vec α m) : Vec α n := of fun i => v (i.castLE h)

/-- The leading entries are those of the vector. -/
@[simp] theorem leading_apply {m : Nat} (h : n ≤ m) (v : Vec α m) (i : Fin n) :
    v.leading h i = v (i.castLE h) := by
  simp [leading]

/-- The vector with its first `n` entries replaced by those of `w`. -/
def withLeading {m : Nat} (v : Vec α m) (w : Vec α n) : Vec α m :=
  of fun i => if h : i.val < n then w ⟨i, h⟩ else v i

/-- The leading entries of `v.withLeading w` are `w`. -/
@[simp] theorem leading_withLeading {m : Nat} (h : n ≤ m) (v : Vec α m) (w : Vec α n) :
    (v.withLeading w).leading h = w := by
  ext i
  simp [withLeading]

/-! ### Reordering

An ordering `p : Vec (Fin n) n` lists every index once. Position `j` holds index `p j`. -/

/-- The ordering by index. -/
def identity (n : Nat) : Vec (Fin n) n := of id

/-- Position `j` of the identity is index `j`. -/
@[simp] theorem identity_apply (j : Fin n) : identity n j = j := by
  simp [identity]

/-- The vector that has entry `w j` at index `p j`. -/
def scatter (p : Vec (Fin n) n) (w : Vec α n) : Vec α n :=
  Fin.foldl n (fun x j => x.set (p j) (w j)) w

end Vec

end NonlinearSolve

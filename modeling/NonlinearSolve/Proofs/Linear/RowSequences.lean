import NonlinearSolve.Proofs.Linear.RowFolding

/-! # Sequences of rows

Folding a row into a triangular system neither reads nor writes below the diagonal, whatever the
numbers are (`rowUpdate_r_of_lt`, `rowUpdate_reads_upper`). So in exact arithmetic it adds the row
to the normal equations of the triangle on and above the diagonal, also if there is something else
below it, and it keeps the sum of the squares of the right hand sides
(`ofProblem_upper_rowUpdate`, `squares_rowUpdate`). `foldEquations` folds in a sequence of rows, one
after the other, and says what is left of their right hand sides; both facts carry over to it by
induction on the sequence (`foldEquations_gram_gradient`, `foldEquations_squares`). -/

namespace NonlinearSolve

open Matrix Scalar

/-- What relates the starts of two loops and is kept by every pass of both, relates their ends. -/
theorem foldl_relation {β γ : Type*} {n : Nat} {R : β → γ → Prop} {f : β → Fin n → β}
    {g : γ → Fin n → γ} {b : β} {c : γ} (start : R b c)
    (step : ∀ (j : Fin n) (b : β) (c : γ), R b c → R (f b j) (g c j)) :
    R (Fin.foldl n f b) (Fin.foldl n g c) := by
  induction n with
  | zero => exact start
  | succ n ih =>
    rw [Fin.foldl_succ_last, Fin.foldl_succ_last]
    exact step (Fin.last n) _ _ (ih fun j => step j.castSucc)

/-! ### What is read and written -/

section Frame

variable {α : Type} {n : Nat}

/-- Two matrices have the same entries on and above the diagonal. -/
def Mat.SameUpper (r r' : Mat α n n) : Prop := ∀ i j : Fin n, i ≤ j → r i j = r' i j

namespace Mat

/-- A matrix has the upper triangle it has. -/
@[refl] theorem SameUpper.refl (r : Mat α n n) : r.SameUpper r := fun _ _ _ => rfl

/-- Having the same upper triangle is carried from matrix to matrix. -/
theorem SameUpper.trans {r s t : Mat α n n} (h : r.SameUpper s) (h' : s.SameUpper t) :
    r.SameUpper t :=
  fun i j hij => (h i j hij).trans (h' i j hij)

/-- In particular they have the same diagonal. -/
theorem SameUpper.diagonal_eq {r r' : Mat α n n} (h : r.SameUpper r') :
    r.diagonal = r'.diagonal := by
  ext j
  rw [Mat.diagonal_apply, Mat.diagonal_apply, h j j le_rfl]

variable {m : Nat} {a b c : Mat α m n}

/-- Two matrices have the same column `j`, but for what is below the diagonal in the leading square
block. -/
def SameColumn (a b : Mat α m n) (j : Fin n) : Prop :=
  ∀ i : Fin m, i.val ≤ j.val ∨ n ≤ i.val → a i j = b i j

/-- Two matrices are the same but for what is below the diagonal in the leading square block. -/
def SameButLower (a b : Mat α m n) : Prop := ∀ j, a.SameColumn b j

/-- A matrix is the same as itself, below the diagonal as well. -/
@[refl] theorem SameButLower.refl (a : Mat α m n) : a.SameButLower a := fun _ _ _ => rfl

/-- Being the same but below the diagonal is carried from matrix to matrix. -/
theorem SameButLower.trans (h : a.SameButLower b) (h' : b.SameButLower c) : a.SameButLower c :=
  fun j i hi => (h j i hi).trans (h' j i hi)

/-- The leading blocks of such matrices have the same entries on and above the diagonal. -/
theorem SameButLower.leading (hab : a.SameButLower b) (h : n ≤ m) :
    (a.leading h).SameUpper (b.leading h) := by
  intro i j hij
  rw [leading_apply, leading_apply]
  exact hab j _ (.inl hij)

/-- A leading block with the same entries on and above the diagonal may take the place of the one
that a matrix has. -/
theorem sameButLower_withLeading {r : Mat α n n} (h : n ≤ m) (hr : (a.leading h).SameUpper r) :
    a.SameButLower (a.withLeading r) := by
  intro j i hi
  rw [withLeading, of_apply]
  by_cases hin : i.val < n
  · rw [dif_pos hin, ← hr ⟨i, hin⟩ j (hi.resolve_right (Nat.not_le.2 hin)), leading_apply]
    rfl
  · rw [dif_neg hin]

end Mat

namespace RowUpdate

/-- Two updates that differ at most in what is below the diagonals of their triangles. -/
structure Agrees (s t : RowUpdate α n) : Prop where
  r : s.r.SameUpper t.r
  b : s.b = t.b
  row : s.row = t.row
  residue : s.residue = t.residue
  rotations : s.rotations = t.rotations

variable [Scalar α] {s t : RowUpdate α n} {l : Fin n}

/-- A step leaves the entries below the diagonal alone. -/
theorem step_r_of_lt (s : RowUpdate α n) (l : Fin n) {i j : Fin n} (hji : j < i) :
    (s.step l).r i j = s.r i j := by
  rw [step, Mat.setRow_apply, Vec.map_apply, Vec.of_apply]
  by_cases hil : i = l
  · -- in the row of the step only the entries from the diagonal on are rotated
    subst hil
    have hnone : ¬ (i < j ∨ (j = i ∧ (!(s.row i == 0)) = true)) := by
      rintro (hij | ⟨heq, -⟩)
      · exact lt_asymm hij hji
      · exact hji.ne heq
    rw [if_pos rfl, if_neg hnone]
  · rw [if_neg hil]

/-- A step does not depend on the entries below the diagonal. -/
theorem Agrees.step (h : Agrees s t) (l : Fin n) : Agrees (s.step l) (t.step l) := by
  obtain ⟨r, b, row, residue, rotations⟩ := s
  obtain ⟨r', b', row', residue', rotations'⟩ := t
  obtain ⟨hr, rfl, rfl, rfl, rfl⟩ := h
  change r.SameUpper r' at hr
  have hdiag : r l l = r' l l := hr l l le_rfl
  have hpair : ∀ (g : Rotation α) (k : Fin n) (p : Prop) [Decidable p], (p → l ≤ k) →
      ((if p then g.apply (r l k) (row k) else (r l k, row k)).2 =
        (if p then g.apply (r' l k) (row k) else (r' l k, row k)).2) := by
    intro g k p _ hp
    by_cases hk : p
    · rw [if_pos hk, if_pos hk, hr l k (hp hk)]
    · rw [if_neg hk, if_neg hk]
  have hread : ∀ k : Fin n, (l < k ∨ (k = l ∧ (!(row l == 0)) = true)) → l ≤ k := by
    rintro k (hlk | ⟨rfl, -⟩)
    · exact hlk.le
    · exact le_rfl
  refine ⟨?_, ?_, ?_, ?_, ?_⟩
  · intro i j hij
    simp only [RowUpdate.step, Mat.setRow_apply, Vec.map_apply, Vec.of_apply, hdiag]
    by_cases hil : i = l
    · subst hil
      rw [if_pos rfl, if_pos rfl, hr i j hij]
    · rw [if_neg hil, if_neg hil, hr i j hij]
  · simp only [RowUpdate.step, hdiag]
  · simp only [RowUpdate.step, hdiag]
    ext k
    rw [Vec.map_apply, Vec.map_apply, Vec.of_apply, Vec.of_apply]
    exact hpair _ k _ (hread k)
  · simp only [RowUpdate.step, hdiag]
  · simp only [RowUpdate.step, hdiag]

end RowUpdate

variable [Scalar α] {r r' : Mat α n n}

/-- Folding in a row leaves the entries below the diagonal alone. -/
theorem rowUpdate_r_of_lt (r : Mat α n n) (w b : Vec α n) (β : α) {i j : Fin n} (hji : j < i) :
    (rowUpdate r w b β).r i j = r i j :=
  foldl_invariant (f := RowUpdate.step) (b := .start r b w β)
    (motive := fun _ (s : RowUpdate α n) => s.r i j = r i j) rfl
    fun l s hs => (s.step_r_of_lt l hji).trans hs

/-- What folding in a row does elsewhere does not depend on them. -/
theorem rowUpdate_reads_upper (h : r.SameUpper r') (w b : Vec α n) (β : α) :
    (rowUpdate r w b β).Agrees (rowUpdate r' w b β) :=
  foldl_relation (R := RowUpdate.Agrees) ⟨h, rfl, rfl, rfl, rfl⟩ fun l _ _ hs => hs.step l

end Frame

/-! ### One row -/

variable {n : Nat}

/-- The upper triangle only depends on the entries on and above the diagonal. -/
theorem Mat.SameUpper.upper_eq {r r' : Mat ℝ n n} (h : r.SameUpper r') : r.upper = r'.upper := by
  ext i j
  rcases le_or_gt i j with hij | hji
  · rw [r.upper_of_le hij, r'.upper_of_le hij, h i j hij]
  · rw [r.upper_of_lt hji, r'.upper_of_lt hji]

/-- The upper triangle of a triangular matrix is that matrix. -/
theorem Mat.upper_eq_toMatrix {a : Mat ℝ n n} (h : a.toMatrix.IsUpperTriangular) :
    a.upper = a.toMatrix := by
  ext i j
  rcases le_or_gt i j with hij | hji
  · exact a.upper_of_le hij
  · rw [a.upper_of_lt hji, h hji]

/-- Folding in a row adds it to the normal equations of the triangle on and above the diagonal. -/
theorem ofProblem_upper_rowUpdate (r : Mat ℝ n n) (w b : Vec ℝ n) (β : ℝ) :
    NormalEquations.ofProblem (rowUpdate r w b β).r.upper (rowUpdate r w b β).b.get =
      (NormalEquations.ofProblem r.upper b.get).addRow w.get β := by
  -- with zeros below the diagonal the result is the same
  set r₀ : Mat ℝ n n := Mat.of r.upper with hr₀
  have hmatrix : r₀.toMatrix = r.upper := by
    ext i j
    exact Mat.of_apply _ i j
  have htri : r₀.toMatrix.IsUpperTriangular := by
    rw [hmatrix]
    exact NormalEquations.isUpperTriangular_upper r
  have hsame : r.SameUpper r₀ := fun i j hij =>
    ((Mat.of_apply _ i j).trans (r.upper_of_le hij)).symm
  have hagrees := rowUpdate_reads_upper hsame w b β
  obtain ⟨htri', heq⟩ := equations_rowUpdate htri w b β
  rw [hagrees.r.upper_eq, hagrees.b, Mat.upper_eq_toMatrix htri', heq, hmatrix]

/-- A step keeps the sum of the squares of the right hand sides. -/
theorem RowUpdate.squares_step (s : RowUpdate ℝ n) (j : Fin n) :
    (s.step j).b.get ⬝ᵥ (s.step j).b.get + (s.step j).residue * (s.step j).residue =
      s.b.get ⬝ᵥ s.b.get + s.residue * s.residue := by
  set g := if s.row j = 0 then Rotation.identity else .annihilating (s.r j j) (s.row j) with hg
  have hunit : g.IsUnit := RowSystem.isUnit_rotation _ _
  -- whether there is something to eliminate or not, the right hand sides are rotated
  have hright : (s.step j).b = s.b.set j (g.apply (s.b j) s.residue).1 ∧
      (s.step j).residue = (g.apply (s.b j) s.residue).2 := by
    by_cases hzero : s.row j = 0
    · have hdone : (s.row j == 0) = true := (Exact.beq_iff _ _).2 hzero
      simp only [step, hdone, if_true, hg, if_pos hzero, RowSystem.apply_identity, and_self]
    · have hdone : (s.row j == 0) = false := (Exact.beq_eq_false_iff _ _).2 hzero
      simp only [step, hdone, Bool.false_eq_true, if_false, hg, if_neg hzero, and_self]
  have hget : (s.step j).b.get = Function.update s.b.get j (g.apply (s.b j) s.residue).1 := by
    rw [hright.1]
    funext i
    rw [Vec.set_apply, Function.update_apply]
  rw [hget, hright.2]
  exact RowSystem.dot_rotate hunit s.b.get s.b.get s.residue s.residue j

/-- Folding in a row keeps the sum of the squares of the right hand sides, its own included. -/
theorem squares_rowUpdate (r : Mat ℝ n n) (w b : Vec ℝ n) (β : ℝ) :
    (rowUpdate r w b β).b.get ⬝ᵥ (rowUpdate r w b β).b.get + (rowUpdate r w b β).residue ^ 2 =
      b.get ⬝ᵥ b.get + β ^ 2 := by
  rw [pow_two, pow_two]
  exact foldl_invariant (f := RowUpdate.step) (b := .start r b w β)
    (motive := fun _ (s : RowUpdate ℝ n) => s.b.get ⬝ᵥ s.b.get + s.residue * s.residue =
      b.get ⬝ᵥ b.get + β * β) rfl fun j s hs => (s.squares_step j).trans hs

/-! ### A sequence of rows -/

section Sequences

variable {α : Type} [Scalar α]

/-- Folds a sequence of rows, each with its right hand side, into a triangular system. The result is
the triangle and its right hand side, and what is left of the right hand sides of the rows. -/
def foldEquations : Mat α n n → Vec α n → List (Vec α n × α) → Mat α n n × Vec α n × List α
  | r, b, [] => (r, b, [])
  | r, b, (w, β) :: rest =>
    let u := rowUpdate r w b β
    let (r', b', residues) := foldEquations u.r u.b rest
    (r', b', u.residue :: residues)

/-- The first row is folded before the others, and what is left of it is the first residue. -/
theorem foldEquations_cons (r : Mat α n n) (b w : Vec α n) (β : α) (rest : List (Vec α n × α)) :
    foldEquations r b ((w, β) :: rest) =
      ((foldEquations (rowUpdate r w b β).r (rowUpdate r w b β).b rest).1,
        (foldEquations (rowUpdate r w b β).r (rowUpdate r w b β).b rest).2.1,
        (rowUpdate r w b β).residue ::
          (foldEquations (rowUpdate r w b β).r (rowUpdate r w b β).b rest).2.2) := rfl

/-- Each row leaves something of its right hand side. -/
theorem foldEquations_length (r : Mat α n n) (b : Vec α n) (rows : List (Vec α n × α)) :
    (foldEquations r b rows).2.2.length = rows.length := by
  induction rows generalizing r b with
  | nil => rfl
  | cons row rest ih =>
    obtain ⟨w, β⟩ := row
    rw [foldEquations_cons, List.length_cons, List.length_cons, ih]

/-- Below the diagonal a sequence of rows leaves all as it is. -/
theorem foldEquations_r_of_lt (r : Mat α n n) (b : Vec α n) (rows : List (Vec α n × α))
    {i j : Fin n} (hji : j < i) : (foldEquations r b rows).1 i j = r i j := by
  induction rows generalizing r b with
  | nil => rfl
  | cons row rest ih =>
    obtain ⟨w, β⟩ := row
    rw [foldEquations_cons, ih, rowUpdate_r_of_lt r w b β hji]

/-- What a sequence of rows does elsewhere does not depend on it. -/
theorem foldEquations_reads_upper {r r' : Mat α n n} (h : r.SameUpper r') (b : Vec α n)
    (rows : List (Vec α n × α)) :
    (foldEquations r b rows).1.SameUpper (foldEquations r' b rows).1 ∧
      (foldEquations r b rows).2 = (foldEquations r' b rows).2 := by
  induction rows generalizing r r' b with
  | nil => exact ⟨h, rfl⟩
  | cons row rest ih =>
    obtain ⟨w, β⟩ := row
    have hrow := rowUpdate_reads_upper h w b β
    obtain ⟨hupper, hrest⟩ := ih hrow.r (rowUpdate r w b β).b
    rw [hrow.b] at hupper hrest
    simp only [foldEquations_cons, hrow.b, hrow.residue, hrest, and_true]
    exact hupper

end Sequences

/-- A sequence of rows is added to the normal equations row by row. -/
theorem ofProblem_upper_foldEquations (r : Mat ℝ n n) (b : Vec ℝ n) (rows : List (Vec ℝ n × ℝ)) :
    NormalEquations.ofProblem (foldEquations r b rows).1.upper (foldEquations r b rows).2.1.get =
      rows.foldl (fun eqs e => eqs.addRow e.1.get e.2)
        (NormalEquations.ofProblem r.upper b.get) := by
  induction rows generalizing r b with
  | nil => rfl
  | cons row rest ih =>
    obtain ⟨w, β⟩ := row
    rw [foldEquations_cons, ih, ofProblem_upper_rowUpdate, List.foldl_cons]

/-- A sequence of rows adds its products to the normal equations. -/
theorem foldEquations_gram_gradient (r : Mat ℝ n n) (b : Vec ℝ n) (rows : List (Vec ℝ n × ℝ)) :
    ((foldEquations r b rows).1.upper)ᵀ * (foldEquations r b rows).1.upper =
        r.upperᵀ * r.upper + (rows.map fun e => vecMulVec e.1.get e.1.get).sum ∧
      ((foldEquations r b rows).1.upper)ᵀ *ᵥ (foldEquations r b rows).2.1.get =
        r.upperᵀ *ᵥ b.get + (rows.map fun e => e.2 • e.1.get).sum := by
  have heq := ofProblem_upper_foldEquations r b rows
  have hsum := NormalEquations.foldl_addRow (fun e : Vec ℝ n × ℝ => e.1.get) (fun e => e.2) rows
    (NormalEquations.ofProblem r.upper b.get)
  rw [hsum] at heq
  exact ⟨congrArg NormalEquations.matrix heq, congrArg NormalEquations.rhs heq⟩

/-- The squares of all right hand sides together stay the same. -/
theorem foldEquations_squares (r : Mat ℝ n n) (b : Vec ℝ n) (rows : List (Vec ℝ n × ℝ)) :
    (foldEquations r b rows).2.1.get ⬝ᵥ (foldEquations r b rows).2.1.get +
        ((foldEquations r b rows).2.2.map (· ^ 2)).sum =
      b.get ⬝ᵥ b.get + (rows.map fun e => e.2 ^ 2).sum := by
  induction rows generalizing r b with
  | nil => rfl
  | cons row rest ih =>
    obtain ⟨w, β⟩ := row
    have hrest := ih (rowUpdate r w b β).r (rowUpdate r w b β).b
    have hrow := squares_rowUpdate r w b β
    rw [foldEquations_cons, List.map_cons, List.sum_cons, List.map_cons, List.sum_cons]
    linarith

end NonlinearSolve

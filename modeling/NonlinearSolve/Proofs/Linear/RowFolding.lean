import Mathlib.Analysis.SpecialFunctions.Sqrt
import NonlinearSolve.Linear.DampedSolve
import NonlinearSolve.Linear.RowUpdate
import NonlinearSolve.Proofs.Linear.NormalEquations
import NonlinearSolve.Proofs.Linear.Rotations

/-! # Folding rows into a triangular system

A row with its right hand side is folded into a triangular system by rotations, whether it is a row
of a Jacobian (`rowUpdate`) or of the damping (`DampedSolve.addRow`). Both are loops of one step on
a `RowSystem`. A rotation does not change the normal equations of the system together with the row
(`RowSystem.equations_rotate`), and in the end nothing of the row is left; so folding in a row adds
it to the normal equations (`equations_rowUpdate`, `equations_eliminate`). -/

namespace NonlinearSolve

open Matrix Scalar

variable {m n : Nat}

namespace NormalEquations

/-- Adds a row of the problem, with its right hand side. -/
def addRow (eqs : NormalEquations n) (w : Fin n → ℝ) (β : ℝ) : NormalEquations n :=
  ⟨eqs.matrix + vecMulVec w w, eqs.rhs + β • w⟩

/-- A row of zeros adds nothing. -/
theorem addRow_zero (eqs : NormalEquations n) (β : ℝ) : eqs.addRow 0 β = eqs := by
  rw [addRow, vecMulVec_zero, add_zero, smul_zero, add_zero]

/-- Adding rows one after the other. -/
theorem foldl_addRow {ι : Type*} (w : ι → Fin n → ℝ) (β : ι → ℝ) (l : List ι)
    (eqs : NormalEquations n) :
    l.foldl (fun eqs i => eqs.addRow (w i) (β i)) eqs =
      ⟨eqs.matrix + (l.map fun i => vecMulVec (w i) (w i)).sum,
        eqs.rhs + (l.map fun i => β i • w i).sum⟩ := by
  induction l generalizing eqs with
  | nil => simp only [List.foldl_nil, List.map_nil, List.sum_nil, add_zero]
  | cons i l ih =>
    rw [List.foldl_cons, ih, List.map_cons, List.map_cons, List.sum_cons, List.sum_cons, addRow,
      add_assoc, add_assoc]

end NormalEquations

/-! ### One step -/

/-- A triangular system together with a row that is being folded in. -/
structure RowSystem (n : Nat) where
  /-- The triangular matrix. -/
  matrix : Matrix (Fin n) (Fin n) ℝ
  /-- The right hand side. -/
  rhs : Fin n → ℝ
  /-- What is left of the row. -/
  row : Fin n → ℝ
  /-- What is left of the right hand side of the row. -/
  residue : ℝ

namespace RowSystem

/-- The normal equations of the system together with the row. -/
def equations (s : RowSystem n) : NormalEquations n :=
  (NormalEquations.ofProblem s.matrix s.rhs).addRow s.row s.residue

/-- Rotates row `k` of the system against the row that is being folded in. -/
noncomputable def rotate (s : RowSystem n) (g : Rotation ℝ) (k : Fin n) : RowSystem n where
  matrix := s.matrix.updateRow k fun i => (g.apply (s.matrix k i) (s.row i)).1
  rhs := Function.update s.rhs k (g.apply (s.rhs k) s.residue).1
  row i := (g.apply (s.matrix k i) (s.row i)).2
  residue := (g.apply (s.rhs k) s.residue).2

/-- The system is triangular, and the first `k` entries of the row are zero. -/
structure Cleared (s : RowSystem n) (k : Nat) : Prop where
  triangular : s.matrix.IsUpperTriangular
  row_eq_zero (i : Fin n) : i.val < k → s.row i = 0

/-- Takes entry `k` of the row to zero, unless it is zero already. -/
noncomputable def eliminate (s : RowSystem n) (k : Fin n) : RowSystem n :=
  s.rotate (if s.row k = 0 then .identity else .annihilating (s.matrix k k) (s.row k)) k

/-- A rotation changes one row of the triangular matrix. -/
theorem rotate_matrix (s : RowSystem n) (g : Rotation ℝ) (k l i : Fin n) :
    (s.rotate g k).matrix l i =
      if l = k then (g.apply (s.matrix k i) (s.row i)).1 else s.matrix l i := updateRow_apply

/-- A rotation changes every entry of the row that is folded in. -/
theorem rotate_row (s : RowSystem n) (g : Rotation ℝ) (k i : Fin n) :
    (s.rotate g k).row i = (g.apply (s.matrix k i) (s.row i)).2 := rfl

variable {s : RowSystem n} {g : Rotation ℝ} {k : Fin n}

/-- A rotation keeps scalar products. -/
theorem dot_rotate (hg : g.IsUnit) (a b : Fin n → ℝ) (x y : ℝ) (k : Fin n) :
    Function.update a k (g.apply (a k) x).1 ⬝ᵥ Function.update b k (g.apply (b k) y).1 +
      (g.apply (a k) x).2 * (g.apply (b k) y).2 = a ⬝ᵥ b + x * y := by
  -- only row `k` and the row that is folded in contribute something new
  have hrest : ∑ l ∈ Finset.univ.erase k, Function.update a k (g.apply (a k) x).1 l *
      Function.update b k (g.apply (b k) y).1 l = ∑ l ∈ Finset.univ.erase k, a l * b l := by
    refine Finset.sum_congr rfl ?_
    intro l hl
    have hne : l ≠ k := Finset.ne_of_mem_erase hl
    rw [Function.update_of_ne hne, Function.update_of_ne hne]
  have hleft := Finset.add_sum_erase Finset.univ (fun l => Function.update a k
    (g.apply (a k) x).1 l * Function.update b k (g.apply (b k) y).1 l) (Finset.mem_univ k)
  have hright := Finset.add_sum_erase Finset.univ (fun l => a l * b l) (Finset.mem_univ k)
  rw [dotProduct, dotProduct, ← hleft, ← hright, hrest]
  simp only [Function.update_self]
  have hsq : g.cos ^ 2 + g.sin ^ 2 = 1 := hg
  simp only [Rotation.apply]
  linear_combination (a k * b k + x * y) * hsq

/-- A rotation does not change the normal equations. -/
theorem equations_rotate (hg : g.IsUnit) (s : RowSystem n) (k : Fin n) :
    (s.rotate g k).equations = s.equations := by
  have hcol : ∀ i, (s.rotate g k).matrixᵀ i =
      Function.update (s.matrixᵀ i) k (g.apply (s.matrix k i) (s.row i)).1 := by
    intro i
    funext l
    rw [transpose_apply, rotate_matrix, Function.update_apply]
    rfl
  rw [equations, equations, NormalEquations.addRow, NormalEquations.addRow]
  -- every entry of the normal equations is a scalar product of two rotated columns
  congr 1
  · ext i j
    change (s.rotate g k).matrixᵀ i ⬝ᵥ (s.rotate g k).matrixᵀ j + _ =
      s.matrixᵀ i ⬝ᵥ s.matrixᵀ j + s.row i * s.row j
    rw [hcol, hcol]
    exact dot_rotate hg (s.matrixᵀ i) (s.matrixᵀ j) (s.row i) (s.row j) k
  · funext i
    change (s.rotate g k).matrixᵀ i ⬝ᵥ _ + (s.rotate g k).residue * (s.rotate g k).row i =
      s.matrixᵀ i ⬝ᵥ s.rhs + s.residue * s.row i
    rw [hcol, mul_comm, mul_comm s.residue]
    exact dot_rotate hg (s.matrixᵀ i) s.rhs (s.row i) s.residue k

/-- Two zeros stay zero under every rotation. -/
theorem apply_zero (g : Rotation ℝ) : g.apply 0 0 = (0, 0) := by
  simp only [Rotation.apply, mul_zero, add_zero]

/-- The identity leaves both entries as they are. -/
theorem apply_identity (x y : ℝ) : (Rotation.identity : Rotation ℝ).apply x y = (x, y) := by
  simp only [Rotation.apply, Rotation.identity, one_mul, zero_mul, add_zero, neg_zero, zero_add]

/-- The rotation of a step is one of the plane, also where it is the identity. -/
theorem isUnit_rotation (a b : ℝ) :
    (if b = 0 then Rotation.identity else .annihilating a b).IsUnit := by
  split
  · exact Rotation.isUnit_identity
  · exact Rotation.isUnit_annihilating a b

/-- One step of folding a row keeps the normal equations. -/
theorem equations_eliminate (s : RowSystem n) (k : Fin n) :
    (s.eliminate k).equations = s.equations :=
  equations_rotate (isUnit_rotation _ _) s k

/-- Before column `k` there is nothing to rotate. -/
theorem Cleared.apply_of_lt (h : s.Cleared k) (g : Rotation ℝ) {i : Fin n} (hi : i < k) :
    g.apply (s.matrix k i) (s.row i) = (0, 0) := by
  have hzero : s.matrix k i = 0 := h.triangular hi
  rw [hzero, h.row_eq_zero i hi, apply_zero]

/-- So it makes no difference whether the entries before column `k` are rotated or left alone. -/
theorem Cleared.apply_eq_ite (h : s.Cleared k) (g : Rotation ℝ) (i : Fin n) {p : Prop} [Decidable p]
    (hp : k ≤ i → p) :
    (if p then g.apply (s.matrix k i) (s.row i) else (s.matrix k i, s.row i)) =
      g.apply (s.matrix k i) (s.row i) := by
  rcases lt_or_ge i k with hik | hki
  · have hzero : s.matrix k i = 0 := h.triangular hik
    rw [hzero, h.row_eq_zero i hik, apply_zero, ite_self]
  · rw [if_pos (hp hki)]

/-- Eliminating entry `k` keeps the system triangular and the earlier entries zero. -/
theorem Cleared.eliminate (h : s.Cleared k) : (s.eliminate k).Cleared (k + 1) where
  triangular i j hij := by
    rw [RowSystem.eliminate, rotate_matrix]
    by_cases hi : i = k
    · subst hi
      have hji : j < i := hij
      rw [if_pos rfl, h.apply_of_lt _ hji]
    · rw [if_neg hi]
      exact h.triangular hij
  row_eq_zero i hi := by
    obtain hlt | heq := Nat.lt_succ_iff_lt_or_eq.1 hi
    · exact congrArg Prod.snd (h.apply_of_lt _ hlt)
    · obtain rfl : i = k := Fin.ext heq
      rw [RowSystem.eliminate, rotate_row]
      by_cases hzero : s.row i = 0
      · rw [if_pos hzero, apply_identity]
        exact hzero
      · rw [if_neg hzero, Rotation.apply_annihilating]

/-- Nothing is left of a row of zeros. -/
theorem Cleared.equations_eq (h : s.Cleared n) :
    s.equations = NormalEquations.ofProblem s.matrix s.rhs := by
  have hrow : s.row = 0 := funext fun i => h.row_eq_zero i i.isLt
  rw [equations, hrow, NormalEquations.addRow_zero]

end RowSystem

/-! ### Rows of a Jacobian -/

namespace RowUpdate

/-- The system and the row of an update. -/
def toSystem (s : RowUpdate ℝ n) : RowSystem n where
  matrix := s.r.toMatrix
  rhs := s.b.get
  row := s.row.get
  residue := s.residue

/-- A step of the update takes one entry to zero. -/
theorem toSystem_step {s : RowUpdate ℝ n} {j : Fin n} (h : s.toSystem.Cleared j) :
    (s.step j).toSystem = s.toSystem.eliminate j := by
  by_cases hzero : s.row j = 0
  · -- an entry that is zero already needs no rotation
    have hdone : (s.row j == 0) = true := (Exact.beq_iff _ _).2 hzero
    have hrow : s.toSystem.row j = 0 := hzero
    rw [RowSystem.eliminate, if_pos hrow]
    simp only [toSystem, step, hdone, RowSystem.rotate, RowSystem.apply_identity, if_true, ite_self,
      RowSystem.mk.injEq]
    refine ⟨?_, ?_, ?_⟩
    · ext l i
      rw [Mat.toMatrix_apply, Mat.setRow_apply, Vec.map_apply, Vec.of_apply, updateRow_apply]
      rfl
    · funext l
      rw [Vec.set_apply, Function.update_apply]
    · exact ⟨funext fun i => by rw [Vec.map_apply, Vec.of_apply], trivial⟩
  · have hdone : (s.row j == 0) = false := (Exact.beq_eq_false_iff _ _).2 hzero
    have hrow : ¬ s.toSystem.row j = 0 := hzero
    have hpair : ∀ i, (if j < i ∨ i = j then
          (Rotation.annihilating (s.r j j) (s.row j)).apply (s.r j i) (s.row i)
        else (s.r j i, s.row i)) =
        (Rotation.annihilating (s.r j j) (s.row j)).apply (s.r j i) (s.row i) := by
      intro i
      exact h.apply_eq_ite _ i fun hji => (lt_or_eq_of_le hji).imp_right Eq.symm
    rw [RowSystem.eliminate, if_neg hrow]
    simp only [toSystem, step, hdone, RowSystem.rotate, Bool.not_false, and_true,
      Bool.false_eq_true, if_false, hpair, RowSystem.mk.injEq]
    refine ⟨?_, ?_, ?_, rfl⟩
    · ext l i
      rw [Mat.toMatrix_apply, Mat.setRow_apply, Vec.map_apply, Vec.of_apply, updateRow_apply]
      rfl
    · funext l
      rw [Vec.set_apply, Function.update_apply]
      rfl
    · funext i
      rw [Vec.map_apply, Vec.of_apply]
      rfl

end RowUpdate

/-- Folding a row into a triangular system adds it to the normal equations. -/
theorem equations_rowUpdate {r : Mat ℝ n n} (hr : r.toMatrix.IsUpperTriangular) (w b : Vec ℝ n)
    (β : ℝ) :
    (rowUpdate r w b β).r.toMatrix.IsUpperTriangular ∧
      NormalEquations.ofProblem (rowUpdate r w b β).r.toMatrix (rowUpdate r w b β).b.get =
        (NormalEquations.ofProblem r.toMatrix b.get).addRow w.get β := by
  have hloop := foldl_invariant (f := RowUpdate.step) (b := .start r b w β)
    (motive := fun j (s : RowUpdate ℝ n) => s.toSystem.Cleared j ∧
      s.toSystem.equations = (NormalEquations.ofProblem r.toMatrix b.get).addRow w.get β)
    ⟨⟨hr, fun i hi => absurd hi (Nat.not_lt_zero _)⟩, rfl⟩ fun j s ⟨hclear, heq⟩ => by
      rw [RowUpdate.toSystem_step hclear, RowSystem.equations_eliminate]
      exact ⟨hclear.eliminate, heq⟩
  obtain ⟨hclear, heq⟩ := hloop
  exact ⟨hclear.triangular, hclear.equations_eq.symm.trans heq⟩

/-! ### Rows of the damping -/

namespace NormalEquations

/-- A row with one entry damps one unknown. -/
theorem damped_addRow (eqs : NormalEquations n) {d : Fin n → ℝ} {j : Fin n} (hj : d j = 0)
    (x : ℝ) :
    (eqs.damped d).addRow (Pi.single j x) 0 = eqs.damped (Function.update d j x) := by
  rw [damped, addRow, damped, zero_smul, add_zero, add_assoc]
  congr 2
  ext i l
  rw [Matrix.add_apply, diagonal_apply, diagonal_apply, vecMulVec_apply, Pi.single_apply,
    Pi.single_apply, Function.update_apply]
  by_cases hil : i = l
  · subst hil
    rw [if_pos rfl, if_pos rfl]
    by_cases hi : i = j
    · rw [if_pos hi, if_pos hi, hi, hj]
      ring
    · rw [if_neg hi, if_neg hi, mul_zero, add_zero]
  · rw [if_neg hil, if_neg hil, zero_add]
    by_cases hi : i = j
    · have hl : ¬ l = j := fun hl => hil (hi.trans hl.symm)
      rw [if_neg hl, mul_zero]
    · rw [if_neg hi, zero_mul]

end NormalEquations

namespace DampedSolve

section Frame

variable {α : Type} [Scalar α] (s : State α n) (k : Fin n)

/-- A rotation leaves the entries above the diagonal alone. -/
theorem rotate_r_of_lt {i l : Fin n} (hil : i < l) : (rotate s k).r i l = s.r i l := by
  rw [rotate]
  split
  · rfl
  · rw [Mat.setCol_apply]
    by_cases hl : l = k
    · subst hl
      rw [if_pos rfl, Vec.of_apply, if_neg hil.not_ge]
    · rw [if_neg hl]

/-- A rotation acts on one column. -/
theorem rotate_r_of_ne (i : Fin n) {l : Fin n} (hl : l ≠ k) : (rotate s k).r i l = s.r i l := by
  rw [rotate]
  split
  · rfl
  · rw [Mat.setCol_apply, if_neg hl]

/-- A rotation leaves what is done alone. -/
theorem rotate_sdiag_of_le {i : Fin n} (hik : i ≤ k) : (rotate s k).sdiag i = s.sdiag i := by
  rw [rotate]
  split
  · rfl
  · rw [Vec.of_apply, if_neg hik.not_gt]

end Frame

variable {s : State ℝ n} {j : Nat}

/-- The triangular matrix of the system if the first `j` positions are done: the transposed copy,
with each entry of the diagonal where it is kept. -/
def State.matrix (s : State ℝ n) (j : Nat) : Matrix (Fin n) (Fin n) ℝ := fun i l =>
  if i < l then s.r l i else if i = l then if i.val < j then s.sdiag i else s.r i i else 0

/-- Above the diagonal the triangle is stored as the rows below it. -/
theorem matrix_of_lt (s : State ℝ n) (j : Nat) {i l : Fin n} (hil : i < l) :
    s.matrix j i l = s.r l i := if_pos hil

/-- The diagonal of the triangle is set aside for the positions that are done. -/
theorem matrix_self (s : State ℝ n) (j : Nat) (i : Fin n) :
    s.matrix j i i = if i.val < j then s.sdiag i else s.r i i :=
  (if_neg (lt_irrefl i)).trans (if_pos rfl)

/-- What a damped solve stores is read as a triangle. -/
theorem isUpperTriangular_matrix (s : State ℝ n) (j : Nat) :
    (s.matrix j).IsUpperTriangular := by
  intro i l hli
  have hlt : l < i := hli
  exact (if_neg hlt.not_gt).trans (if_neg hlt.ne')

/-- The system and the row of a damped solve if the first `j` positions are done and the first `k`
entries of the row have been taken to zero. Those are not written, so they are not read here. -/
def State.toSystem (s : State ℝ n) (j k : Nat) : RowSystem n where
  matrix := s.matrix j
  rhs := s.rhs.get
  row i := if i.val < k then 0 else s.sdiag i
  residue := s.residue

/-- Entries that have been taken to zero count as zeros. -/
theorem cleared_toSystem (s : State ℝ n) (j k : Nat) : (s.toSystem j k).Cleared k where
  triangular := isUpperTriangular_matrix s j
  row_eq_zero _ hi := if_pos hi

/-- The entries still to come are those of the row. -/
theorem toSystem_row_of_le (s : State ℝ n) (j : Nat) {k : Nat} {i : Fin n} (hki : k ≤ i.val) :
    (s.toSystem j k).row i = s.sdiag i := if_neg (Nat.not_lt.2 hki)

/-- Above the diagonal the system is the stored triangle. -/
theorem toSystem_matrix_of_lt (s : State ℝ n) (j : Nat) {k i l : Fin n} (hil : i < l) :
    (s.toSystem j k).matrix i l = s.r l i := matrix_of_lt s j hil

/-- A position that is not done has its pivot on the diagonal of the matrix. -/
theorem toSystem_matrix_self {k : Fin n} (hjk : j ≤ k) :
    (s.toSystem j k).matrix k k = s.r k k :=
  (matrix_self s j k).trans (if_neg hjk.not_gt)

section Rotate

variable (s : State ℝ n) (k : Fin n)

/-- The rotation that takes entry `k` of the row to zero, by nothing if it is zero already. -/
noncomputable def State.rotation : Rotation ℝ :=
  if s.sdiag k = 0 then .identity else .annihilating (s.r k k) (s.sdiag k)

/-- A rotation by nothing is one like the others. -/
theorem rotate_r_self {i : Fin n} (hki : k ≤ i) :
    (rotate s k).r i k = ((s.rotation k).apply (s.r i k) (s.sdiag i)).1 := by
  rw [rotate, State.rotation]
  by_cases hzero : s.sdiag k = 0
  · rw [if_pos ((Exact.beq_iff _ _).2 hzero), if_pos hzero, RowSystem.apply_identity]
  · rw [if_neg (mt (Exact.beq_iff _ _).1 hzero), if_neg hzero, Mat.setCol_apply, if_pos rfl,
      Vec.of_apply, if_pos hki]

/-- A rotation changes the entries of the row after its position. -/
theorem rotate_sdiag_of_lt {i : Fin n} (hki : k < i) :
    (rotate s k).sdiag i = ((s.rotation k).apply (s.r i k) (s.sdiag i)).2 := by
  rw [rotate, State.rotation]
  by_cases hzero : s.sdiag k = 0
  · rw [if_pos ((Exact.beq_iff _ _).2 hzero), if_pos hzero, RowSystem.apply_identity]
  · rw [if_neg (mt (Exact.beq_iff _ _).1 hzero), if_neg hzero, Vec.of_apply, if_pos hki]

/-- A rotation acts on the right hand side as it does on the columns. -/
theorem rotate_rhs :
    (rotate s k).rhs = s.rhs.set k ((s.rotation k).apply (s.rhs k) s.residue).1 ∧
      (rotate s k).residue = ((s.rotation k).apply (s.rhs k) s.residue).2 := by
  rw [rotate, State.rotation]
  by_cases hzero : s.sdiag k = 0
  · rw [if_pos ((Exact.beq_iff _ _).2 hzero), if_pos hzero, RowSystem.apply_identity]
    refine ⟨Vec.ext fun i => ?_, rfl⟩
    rw [Vec.set_apply]
    split
    · next heq => rw [heq]
    · rfl
  · rw [if_neg (mt (Exact.beq_iff _ _).1 hzero), if_neg hzero]
    exact ⟨rfl, rfl⟩

/-- Nothing is left of the entry. -/
theorem rotation_apply_self : ((s.rotation k).apply (s.r k k) (s.sdiag k)).2 = 0 := by
  rw [State.rotation]
  by_cases hzero : s.sdiag k = 0
  · rw [if_pos hzero, RowSystem.apply_identity, hzero]
  · rw [if_neg hzero, Rotation.apply_annihilating]

variable {s k} (hjk : j ≤ k)

include hjk

/-- On the triangle a rotation is that of the system. -/
theorem matrix_rotate :
    (rotate s k).matrix j = ((s.toSystem j k).rotate (s.rotation k) k).matrix := by
  ext i l
  rw [RowSystem.rotate_matrix]
  by_cases hik : i = k
  · subst hik
    rw [if_pos rfl]
    rcases lt_trichotomy l i with hli | rfl | hil
    · rw [isUpperTriangular_matrix _ j hli, (cleared_toSystem s j i).apply_of_lt _ hli]
    · rw [matrix_self, if_neg hjk.not_gt, rotate_r_self s l le_rfl, toSystem_matrix_self hjk,
        toSystem_row_of_le s j le_rfl]
    · rw [matrix_of_lt _ j hil, rotate_r_self s i hil.le, toSystem_row_of_le s j hil.le,
        toSystem_matrix_of_lt s j hil]
  · -- the other rows of the triangle are the other columns of the copy
    rw [if_neg hik]
    change (rotate s k).matrix j i l = s.matrix j i l
    simp only [State.matrix, rotate_r_of_ne s k _ hik]
    by_cases hij : i.val < j
    · rw [rotate_sdiag_of_le s k (Fin.le_def.2 (hij.le.trans hjk))]
    · simp only [if_neg hij]

/-- On the row a rotation is that of the system, which takes one entry to zero. -/
theorem row_rotate :
    ((rotate s k).toSystem j (k + 1)).row = ((s.toSystem j k).rotate (s.rotation k) k).row := by
  funext i
  rw [RowSystem.rotate_row]
  rcases lt_trichotomy i k with hik | rfl | hki
  · rw [(cleared_toSystem _ j (k + 1)).row_eq_zero i (Nat.lt_succ_of_lt hik),
      (cleared_toSystem s j k).apply_of_lt _ hik]
  · rw [(cleared_toSystem _ j (i + 1)).row_eq_zero i (Nat.lt_succ_self _),
      toSystem_matrix_self hjk, toSystem_row_of_le s j le_rfl, rotation_apply_self]
  · rw [toSystem_row_of_le _ j (Nat.succ_le_of_lt hki), toSystem_matrix_of_lt s j hki,
      toSystem_row_of_le s j (Fin.le_def.1 hki.le), rotate_sdiag_of_lt s k hki]

/-- A rotation takes one entry to zero. -/
theorem toSystem_rotate : (rotate s k).toSystem j (k + 1) = (s.toSystem j k).eliminate k := by
  obtain ⟨hrhs, hresidue⟩ := rotate_rhs s k
  have hrotation : (s.toSystem j k).eliminate k = (s.toSystem j k).rotate (s.rotation k) k := by
    rw [RowSystem.eliminate, toSystem_row_of_le s j le_rfl, toSystem_matrix_self hjk,
      State.rotation]
  have hset : (s.rhs.set k ((s.rotation k).apply (s.rhs k) s.residue).1).get =
      Function.update s.rhs.get k ((s.rotation k).apply (s.rhs k) s.residue).1 := by
    funext l
    rw [Vec.set_apply, Function.update_apply]
  rw [hrotation]
  change RowSystem.mk ((rotate s k).matrix j) (rotate s k).rhs.get
    ((rotate s k).toSystem j (k + 1)).row (rotate s k).residue = _
  rw [matrix_rotate hjk, row_rotate hjk, hrhs, hset, hresidue]
  rfl

end Rotate

/-- Folding in the row with the entry `d` at position `j` adds it to the normal equations. -/
theorem equations_addRow (s : State ℝ n) (j : Fin n) (d : ℝ) :
    NormalEquations.ofProblem ((addRow s j d).matrix j) (addRow s j d).rhs.get =
      (NormalEquations.ofProblem (s.matrix j) s.rhs.get).addRow (Pi.single j d) 0 := by
  by_cases hd : d = 0
  · rw [addRow, if_pos ((Exact.beq_iff _ _).2 hd), hd, Pi.single_zero, NormalEquations.addRow_zero]
  · rw [addRow, if_neg (mt (Exact.beq_iff _ _).1 hd)]
    set first : State ℝ n := { s with
      sdiag := Vec.of fun i => if i < j then s.sdiag i else if i = j then d else 0
      residue := 0 } with hfirst
    have hstart : first.toSystem j j = ⟨s.matrix j, s.rhs.get, Pi.single j d, 0⟩ := by
      simp only [State.toSystem, RowSystem.mk.injEq, hfirst, true_and, and_true]
      constructor
      · ext i l
        simp only [State.matrix, Vec.of_apply]
        by_cases hij : i < j
        · rw [if_pos hij]
        · have hval : ¬ i.val < j.val := hij
          simp only [if_neg hval]
      · funext i
        rw [Pi.single_apply, Vec.of_apply]
        by_cases hij : i < j
        · rw [if_pos (Fin.lt_def.1 hij), if_neg hij.ne]
        · rw [if_neg hij, if_neg (show ¬ i.val < j.val from hij)]
    -- nothing is left before column `j`, and from there on every entry is rotated away
    have hloop := foldl_invariant (f := fun s k => if j ≤ k then rotate s k else s) (b := first)
      (motive := fun k (s' : State ℝ n) => (s'.toSystem j (max j k)).equations =
        (NormalEquations.ofProblem (s.matrix j) s.rhs.get).addRow (Pi.single j d) 0)
      ?_ fun k s' heq => ?_
    · rw [max_eq_right j.isLt.le] at hloop
      exact (cleared_toSystem _ j n).equations_eq.symm.trans hloop
    · rw [max_eq_left (Nat.zero_le _), hstart]
      rfl
    · by_cases hjk : j ≤ k
      · have hle : j.val ≤ k.val := hjk
        rw [if_pos hjk, max_eq_right (Nat.le_succ_of_le hle), toSystem_rotate hle,
          RowSystem.equations_eliminate, ← heq, max_eq_right hle]
      · have hlt : k.val < j.val := not_le.1 hjk
        rw [if_neg hjk, max_eq_left (Nat.succ_le_of_lt hlt), ← heq, max_eq_left hlt.le]

/-- When a position is done, its diagonal entry is kept elsewhere. -/
theorem matrix_settle (s : State ℝ n) (j : Fin n) : (settle s j).matrix (j + 1) = s.matrix j := by
  ext i l
  rcases lt_trichotomy i l with hil | rfl | hli
  · have hne : ¬ (l = j ∧ i = j) := fun e => hil.ne (e.2.trans e.1.symm)
    rw [matrix_of_lt _ _ hil, matrix_of_lt _ _ hil, settle, Mat.set_apply, if_neg hne]
  · rw [matrix_self, matrix_self, settle, Vec.set_apply, Mat.set_apply]
    by_cases hij : i = j
    · subst hij
      rw [if_pos (Nat.lt_succ_self _), if_pos rfl, if_neg (lt_irrefl _)]
    · have hiff : i.val < j.val + 1 ↔ i.val < j.val :=
        Nat.lt_succ_iff_lt_or_eq.trans (or_iff_left (Fin.val_ne_of_ne hij))
      simp only [hiff, if_neg hij, and_self]
  · rw [isUpperTriangular_matrix _ _ hli, isUpperTriangular_matrix _ _ hli]

/-- Folding in all rows of the damping damps the normal equations. -/
theorem equations_eliminate (r : Mat ℝ n n) (order : Vec (Fin n) n) (diag rhs : Vec ℝ n) :
    NormalEquations.ofProblem ((eliminate r order diag rhs).matrix n)
        (eliminate r order diag rhs).rhs.get =
      (NormalEquations.ofProblem r.upper rhs.get).damped (diag.get ∘ order.get) := by
  have hstart : (start r rhs).matrix 0 = r.upper := by
    ext i l
    rcases lt_trichotomy i l with hil | rfl | hli
    · rw [matrix_of_lt _ _ hil, r.upper_of_le hil.le, start, Mat.of_apply, if_neg hil.not_ge]
    · rw [matrix_self, if_neg (Nat.not_lt_zero _), r.upper_of_le le_rfl, start, Mat.of_apply,
        if_pos le_rfl]
    · rw [isUpperTriangular_matrix _ _ hli, r.upper_of_lt hli]
  -- after `k` rows the first `k` unknowns, in their new order, are damped
  have hloop := foldl_invariant (f := fun s j => settle (addRow s j (diag (order j))) j)
    (b := start r rhs)
    (motive := fun k (s : State ℝ n) => NormalEquations.ofProblem (s.matrix k) s.rhs.get =
      (NormalEquations.ofProblem r.upper rhs.get).damped
        fun i => if i.val < k then diag (order i) else 0)
    ?_ fun j s heq => ?_
  · refine hloop.trans ?_
    congr 1
    funext i
    exact if_pos i.isLt
  · rw [hstart]
    simp only [Nat.not_lt_zero, if_false, NormalEquations.damped, pow_two, mul_zero,
      diagonal_zero, add_zero]
    rfl
  · -- unknown `j` has not been damped before
    have hfirst : (if j.val < j.val then diag (order j) else 0) = 0 := if_neg (lt_irrefl _)
    have hrhs : (settle (addRow s j (diag (order j))) j).rhs = (addRow s j (diag (order j))).rhs :=
      rfl
    rw [matrix_settle, hrhs, equations_addRow, heq, NormalEquations.damped_addRow _ hfirst]
    congr 1
    funext i
    rw [Function.update_apply]
    by_cases hij : i = j
    · rw [if_pos hij, hij, if_pos (Nat.lt_succ_self _)]
    · have hiff : i.val < j.val + 1 ↔ i.val < j.val :=
        Nat.lt_succ_iff_lt_or_eq.trans (or_iff_left (Fin.val_ne_of_ne hij))
      rw [if_neg hij]
      simp only [hiff]

end DampedSolve

end NonlinearSolve

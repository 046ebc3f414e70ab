import NonlinearSolve.Proofs.Linear.RowSequences
import NonlinearSolve.Proofs.Linear.Substitution

/-! # Damped systems

The copy that the damping is folded into shares a matrix with the triangular factor, but in the end
the factor is as it was (`dampedSolve_r_of_le`), and what was below its diagonal does not matter
(`dampedSolve_congr`), whatever the numbers are.

In exact arithmetic, folding the damping into the triangular factor of normal equations makes a
factor of the damped ones (`NormalEquations.Factored.dampedSolve`), and substitution in it makes a
basic solution of them (`NormalEquations.Factored.solves_dampedSolve`): the unknowns from the first
zero on the diagonal of the damped factor on are zero. If there is no such zero, for instance since
no entry of the damping is zero, it is the solution. `dampedSolve_solves` says this without
reference to particular normal equations. -/

namespace NonlinearSolve

open Matrix Scalar NormalEquations Subproblem

variable {n : Nat} {eqs : NormalEquations n} {r : Mat ℝ n n} {order : Vec (Fin n) n} {rhs : Vec ℝ n}

/-! ### What is read and written -/

section Frame

variable {α : Type} [Scalar α] {r r' : Mat α n n}

namespace DampedSolve

/-- The factor `r` is kept while the first `j` positions are done: above the diagonal, on the
diagonal at those positions, and its whole diagonal aside. -/
structure State.Keeps (s : State α n) (r : Mat α n n) (j : Nat) : Prop where
  rdiag : s.rdiag = r.diagonal
  above (i l : Fin n) : i < l → s.r i l = r i l
  diagonal (i : Fin n) : i.val < j → s.r i i = r i i

/-- At first the whole factor is there, and its diagonal has been set aside. -/
theorem keeps_start (r : Mat α n n) (rhs : Vec α n) : (start r rhs).Keeps r 0 where
  rdiag := rfl
  above _ _ hil := (Mat.of_apply _ _ _).trans (if_pos hil.le)
  diagonal _ hi := absurd hi (Nat.not_lt_zero _)

variable {s : State α n}

/-- A rotation acts on columns that are not done, from the diagonal on. -/
theorem State.Keeps.rotate {j : Nat} (h : s.Keeps r j) {k : Fin n} (hjk : j ≤ k) :
    (rotate s k).Keeps r j where
  rdiag := by
    rw [DampedSolve.rotate]
    split <;> exact h.rdiag
  above i l hil := (rotate_r_of_lt s k hil).trans (h.above i l hil)
  diagonal i hi := by
    have hne : i ≠ k := Fin.ne_of_val_ne (by omega)
    exact (rotate_r_of_ne s k i hne).trans (h.diagonal i hi)

/-- Rotating a row of the scaling into the triangle keeps the factor before its position. -/
theorem State.Keeps.addRow {j : Fin n} (h : s.Keeps r j) (d : α) : (addRow s j d).Keeps r j := by
  rw [DampedSolve.addRow]
  split
  · exact h
  · refine foldl_invariant (motive := fun _ (s' : State α n) => s'.Keeps r j)
      ⟨h.rdiag, h.above, h.diagonal⟩ ?_
    intro k s' hs'
    by_cases hjk : j ≤ k
    · rw [if_pos hjk]
      exact hs'.rotate hjk
    · rw [if_neg hjk]
      exact hs'

omit [Scalar α] in
/-- What was put aside takes its place again. -/
theorem State.Keeps.settle {j : Fin n} (h : s.Keeps r j) : (settle s j).Keeps r (j + 1) where
  rdiag := h.rdiag
  above i l hil := by
    have hne : ¬ (i = j ∧ l = j) := fun e => hil.ne (e.1.trans e.2.symm)
    rw [DampedSolve.settle, Mat.set_apply, if_neg hne]
    exact h.above i l hil
  diagonal i hi := by
    rw [DampedSolve.settle, Mat.set_apply]
    by_cases hij : i = j
    · rw [if_pos ⟨hij, hij⟩, h.rdiag, Mat.diagonal_apply, hij]
    · have hne : i.val ≠ j.val := Fin.val_ne_of_ne hij
      rw [if_neg fun e => hij e.1]
      exact h.diagonal i (by omega)

/-- At the end the factor is kept above the diagonal and on it. -/
theorem keeps_eliminate (r : Mat α n n) (order : Vec (Fin n) n) (diag rhs : Vec α n) :
    (eliminate r order diag rhs).Keeps r n :=
  foldl_invariant (motive := fun j (s : State α n) => s.Keeps r j) (keeps_start r rhs)
    fun _ _ hs => (hs.addRow _).settle

/-- Nothing is read below the diagonal. -/
theorem start_congr (h : r.SameUpper r') (rhs : Vec α n) : start r rhs = start r' rhs := by
  have hr : (start r rhs).r = (start r' rhs).r := by
    ext i j
    simp only [start, Mat.of_apply]
    by_cases hij : i ≤ j
    · rw [if_pos hij, if_pos hij, h i j hij]
    · rw [if_neg hij, if_neg hij, h j i (not_le.1 hij).le]
  change State.mk (start r rhs).r r.diagonal (Vec.zero n) rhs 0 = _
  rw [hr, h.diagonal_eq]
  rfl

end DampedSolve

/-- Above the diagonal, and on it, the given factor is returned. -/
theorem dampedSolve_r_of_le (r : Mat α n n) (order : Vec (Fin n) n) (diag rhs : Vec α n)
    {i j : Fin n} (hij : i ≤ j) : (dampedSolve r order diag rhs).r i j = r i j := by
  have hkeeps := DampedSolve.keeps_eliminate r order diag rhs
  obtain hlt | rfl := lt_or_eq_of_le hij
  · exact hkeeps.above i j hlt
  · exact hkeeps.diagonal i i.isLt

/-- The solution does not depend on what is below the diagonal. -/
theorem dampedSolve_congr (h : r.SameUpper r') (order : Vec (Fin n) n) (diag rhs : Vec α n) :
    dampedSolve r order diag rhs = dampedSolve r' order diag rhs := by
  rw [dampedSolve, dampedSolve, DampedSolve.eliminate, DampedSolve.eliminate,
    DampedSolve.start_congr h]

end Frame

/-! ### The damped factor -/

/-- Without damping the diagonal stays as it is. -/
theorem DampedSolve.sdiag_eliminate_zero (r : Mat ℝ n n) (order : Vec (Fin n) n) (rhs : Vec ℝ n)
    (i : Fin n) : (eliminate r order (Vec.zero n) rhs).sdiag i = r i i := by
  have hloop := foldl_invariant
    (f := fun s j => settle (addRow s j ((Vec.zero n : Vec ℝ n) (order j))) j) (b := start r rhs)
    (motive := fun k (s : State ℝ n) => (∀ i, s.r i i = r i i) ∧ s.rdiag = r.diagonal ∧
      ∀ i : Fin n, i.val < k → s.sdiag i = r i i)
    ⟨fun i => (Mat.of_apply _ _ _).trans (if_pos le_rfl), rfl,
      fun i hi => absurd hi (Nat.not_lt_zero _)⟩ fun j s ⟨hr, hrdiag, hdone⟩ => by
      have hnone : addRow s j ((Vec.zero n : Vec ℝ n) (order j)) = s :=
        if_pos ((Exact.beq_iff _ _).2 (Vec.zero_apply _))
      rw [hnone]
      refine ⟨fun i => ?_, hrdiag, fun i hi => ?_⟩
      · rw [settle, Mat.set_apply]
        by_cases hij : i = j
        · rw [if_pos ⟨hij, hij⟩, hrdiag, Mat.diagonal_apply, hij]
        · rw [if_neg fun e => hij e.1, hr]
      · rw [settle, Vec.set_apply]
        by_cases hij : i = j
        · rw [if_pos hij, hr, hij]
        · have hne : i.val ≠ j.val := Fin.val_ne_of_ne hij
          rw [if_neg hij]
          exact hdone i (by omega)
  exact hloop.2.2 i i.isLt

/-- The factor of a damped solution is what the elimination of the damping ends with. -/
theorem factor_dampedSolve (r : Mat ℝ n n) (order : Vec (Fin n) n) (diag rhs : Vec ℝ n) :
    factor (dampedSolve r order diag rhs) =
      (DampedSolve.eliminate r order diag rhs).matrix n := by
  ext i j
  rcases lt_trichotomy i j with hlt | rfl | hgt
  · rw [factor_of_lt _ hlt, DampedSolve.matrix_of_lt _ _ hlt]
    rfl
  · rw [factor_self, DampedSolve.matrix_self, if_pos i.isLt]
    rfl
  · rw [isUpperTriangular_factor _ hgt, DampedSolve.isUpperTriangular_matrix _ _ hgt]

/-- A damped solution comes with a factor of the damped normal equations. -/
theorem NormalEquations.Factored.dampedSolve (h : eqs.Factored r.upper order rhs.get)
    (diag : Vec ℝ n) :
    (eqs.damped diag.get).Factored (factor (NonlinearSolve.dampedSolve r order diag rhs))
      order (DampedSolve.eliminate r order diag rhs).rhs.get := by
  rw [factor_dampedSolve]
  exact h.damped (DampedSolve.isUpperTriangular_matrix _ n)
    (DampedSolve.equations_eliminate r order diag rhs)

/-- A damped solution is a basic solution of the damped normal equations. -/
theorem NormalEquations.Factored.solves_dampedSolve (h : eqs.Factored r.upper order rhs.get)
    (diag : Vec ℝ n) :
    (eqs.damped diag.get).Solves
      (basis order (NonlinearSolve.dampedSolve r order diag rhs).sdiag.firstZero)
      (NonlinearSolve.dampedSolve r order diag rhs).x.get := by
  set s := NonlinearSolve.dampedSolve r order diag rhs with hs
  set w := (DampedSolve.eliminate r order diag rhs).rhs
  have hback := DampedSolve.mulVec_backSubstitute (s := s)
    (fun j (hj : j.val < s.sdiag.firstZero) => Vec.ne_zero_of_lt_firstZero hj) w
  -- the solution is the result of the substitution, put back into the order of the unknowns
  have hx : ∀ j, s.x (order j) =
      DampedSolve.backSubstitute s.r s.sdiag s.sdiag.firstZero w j :=
    Vec.scatter_apply h.bijective.injective _
  have hcomp : s.x.get ∘ order.get =
      (DampedSolve.backSubstitute s.r s.sdiag s.sdiag.firstZero w).get := funext hx
  refine (h.dampedSolve diag).solves_of_leading (fun j hj => (hx j).trans ((hback j).1 hj)) ?_
  intro j hj
  rw [hcomp]
  exact (hback j).2 hj

/-- If no entry of the damping is zero, a damped solution solves the damped normal equations. -/
theorem solves_dampedSolve (h : eqs.Factored r.upper order rhs.get) {diag : Vec ℝ n}
    (hdiag : ∀ i, diag i ≠ 0) :
    (eqs.damped diag.get).matrix *ᵥ (dampedSolve r order diag rhs).x.get = eqs.rhs := by
  have hne := h.diag_ne_zero_of_damped hdiag (h.dampedSolve diag)
  have hrank : (dampedSolve r order diag rhs).sdiag.firstZero = n :=
    Vec.firstZero_eq_iff.2 fun j => factor_self (dampedSolve r order diag rhs) j ▸ hne j
  have hsolves := h.solves_dampedSolve diag
  rw [hrank] at hsolves
  exact (solves_basis_iff h.bijective).1 hsolves

/-! ### What a damped solution is -/

/-- From any zero on the diagonal of the damped factor on, the components of the solution are
zero. -/
theorem dampedSolve_x_eq_zero (horder : Function.Bijective order.get) (diag : Vec ℝ n)
    {l j : Fin n} (hl : (dampedSolve r order diag rhs).sdiag l = 0) (hlj : l ≤ j) :
    (dampedSolve r order diag rhs).x (order j) = 0 := by
  have hsolves := (factored_ofFactor (isUpperTriangular_upper r) horder rhs.get).solves_dampedSolve
    diag
  refine hsolves.outside (order j) ?_
  rintro ⟨i, hi, hij⟩
  obtain rfl : i = j := horder.injective hij
  exact Vec.ne_zero_of_lt_firstZero (lt_of_le_of_lt (Fin.le_def.1 hlj) hi) hl

/-- If the damped factor has no zero on the diagonal, the damped normal equations have one solution,
the computed one. -/
theorem mulVec_eq_iff_dampedSolve (h : eqs.Factored r.upper order rhs.get) {diag : Vec ℝ n}
    (hne : ∀ j, (dampedSolve r order diag rhs).sdiag j ≠ 0) (x : Fin n → ℝ) :
    (eqs.damped diag.get).matrix *ᵥ x = eqs.rhs ↔ x = (dampedSolve r order diag rhs).x.get := by
  have hsolves := h.solves_dampedSolve diag
  rw [Vec.firstZero_eq_iff.2 hne, solves_basis_iff h.bijective] at hsolves
  constructor
  · intro hx
    refine (h.dampedSolve diag).eq_of_mulVec_eq ?_ hx hsolves
    intro j
    rw [factor_self]
    exact hne j
  · rintro rfl
    exact hsolves

/-- The upper triangle of the factor is returned unchanged, whatever the numbers are. In exact
arithmetic the returned triangular matrix `S` satisfies `Sᵀ S = Rᵀ R + Pᵀ D² P`. If there is no zero
on its diagonal, the result is the only solution of the damped normal equations, and else its
components from the first zero on are zero. -/
theorem dampedSolve_solves {n : Nat} :
    (∀ {α : Type} [Scalar α] (r : Mat α n n) (order : Vec (Fin n) n) (diag rhs : Vec α n)
      (i j : Fin n), i ≤ j → (dampedSolve r order diag rhs).r i j = r i j) ∧
    ∀ (r : Mat ℝ n n) (order : Vec (Fin n) n) (diag rhs : Vec ℝ n), Function.Bijective order.get →
      let s := dampedSolve r order diag rhs
      let P := order.permutation
      let D : Matrix (Fin n) (Fin n) ℝ := diagonal diag.get
      (factor s)ᵀ * factor s = r.upperᵀ * r.upper + Pᵀ * D ^ 2 * P ∧
      ((∀ j, s.sdiag j ≠ 0) → ∀ x : Fin n → ℝ,
        (P * (r.upperᵀ * r.upper) * Pᵀ + D ^ 2) *ᵥ x = P *ᵥ (r.upperᵀ *ᵥ rhs.get) ↔ x = s.x.get) ∧
      ∀ l j : Fin n, s.sdiag l = 0 → l ≤ j → s.x (order j) = 0 := by
  refine ⟨fun r order diag rhs i j hij => dampedSolve_r_of_le r order diag rhs hij, ?_⟩
  intro r order diag rhs horder s P D
  have hfactored := factored_ofFactor (isUpperTriangular_upper r) horder rhs.get
  have hD : D ^ 2 = diagonal fun i => diag i ^ 2 := diagonal_pow _ 2
  refine ⟨?_, ?_, fun l j hl hlj => dampedSolve_x_eq_zero horder diag hl hlj⟩
  · rw [(hfactored.dampedSolve diag).gram, hfactored.gram, Vec.permutation_transpose_mul,
      Vec.mul_permutation, submatrix_submatrix, hD, damped, submatrix_add]
    rfl
  · intro hne x
    rw [hD]
    exact mulVec_eq_iff_dampedSolve hfactored hne x

/-- Without damping a singular factor stays as it is. Here the last unknown in its order is the
first one. -/
theorem dampedSolve_solves_singular :
    let r : Mat ℝ 2 2 := Mat.of !![1, 2; 0, 0]
    let order : Vec (Fin 2) 2 := Vec.of ![1, 0]
    let s := dampedSolve r order (Vec.zero 2) (Vec.of ![3, 4])
    Function.Bijective order.get ∧ s.sdiag 1 = 0 ∧ s.x (order 1) = 0 := by
  intro r order s
  have hbij : Function.Bijective order.get := by
    rw [Vec.get_of]
    decide
  have hsdiag : s.sdiag 1 = 0 :=
    (DampedSolve.sdiag_eliminate_zero r order _ 1).trans (Mat.of_apply _ 1 1)
  exact ⟨hbij, hsdiag, (dampedSolve_solves.2 r order (Vec.zero 2) _ hbij).2.2 1 1 hsdiag le_rfl⟩

end NonlinearSolve

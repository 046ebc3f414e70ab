import NonlinearSolve.Proofs.Linear.RowFolding
import NonlinearSolve.TrustRegion.Subproblem

/-! # Substitution in triangular systems

The four loops that solve a triangular system do so: the leading part of one from the last unknown
on (`mulVec_gaussNewton`), a transposed one from the first unknown on
(`transpose_mulVec_solveTransposed`, `transpose_mulVec_substituteLower`), and one given by its
transpose (`mulVec_backSubstitute`). Each loop has an invariant that says which equations hold
already, and a lemma for one pass of it. -/

namespace NonlinearSolve

open Matrix Scalar

variable {n : Nat}

/-! ### Positions -/

namespace Vec

/-- An entry is scattered to the index that the ordering has at its position. -/
theorem scatter_apply {α : Type} {p : Vec (Fin n) n} (hp : Function.Injective p.get) (w : Vec α n)
    (j : Fin n) : scatter p w (p j) = w j := by
  have hloop := foldl_invariant (f := fun (x : Vec α n) j => x.set (p j) (w j)) (b := w)
    (motive := fun k (x : Vec α n) => ∀ l : Fin n, l.val < k → x (p l) = w l)
    (fun l hl => absurd hl (Nat.not_lt_zero _)) fun k x hx l hl => by
      rw [set_apply]
      -- different positions have different indices, so nothing is overwritten
      by_cases hlk : l = k
      · rw [if_pos (congrArg p.get hlk), hlk]
      · have hne : ¬ p l = p k := fun h => hlk (hp h)
        have hval : l.val ≠ k.val := Fin.val_ne_of_ne hlk
        rw [if_neg hne]
        exact hx l (by omega)
  rw [scatter]
  exact hloop j j.isLt

variable {v w : Vec ℝ n} {j : Fin n}

/-- The first zero is looked for among the entries, and put behind them if there is none. -/
theorem firstZero_le (v : Vec ℝ n) : v.firstZero ≤ n := by
  have hle : v.toList.findIdx (fun x => x == 0) ≤ v.toList.length := List.findIdx_le_length
  rwa [length_toList] at hle

/-- Before the first zero there is none. -/
theorem ne_zero_of_lt_firstZero (h : j.val < v.firstZero) : v j ≠ 0 := by
  have hnot := List.not_of_lt_findIdx h
  rw [getElem_toList] at hnot
  exact (Exact.beq_eq_false_iff _ _).1 hnot

/-- The first zero is one. -/
theorem eq_zero_of_eq_firstZero (h : j.val = v.firstZero) : v j = 0 := by
  have hlt : v.toList.findIdx (fun x => x == 0) < v.toList.length := by
    rw [length_toList, ← firstZero, ← h]
    exact j.isLt
  have hget := List.findIdx_getElem (w := hlt)
  have hentry : v.toList[v.toList.findIdx fun x => x == 0] = v j := by
    rw [← v.getElem_toList j (by rw [length_toList]; exact j.isLt)]
    congr 1
    exact h.symm
  rw [hentry] at hget
  exact (Exact.beq_iff _ _).1 hget

/-- No zero is found exactly if there is none. -/
theorem firstZero_eq_iff : v.firstZero = n ↔ ∀ j, v j ≠ 0 := by
  constructor
  · intro h j
    exact ne_zero_of_lt_firstZero (h.symm ▸ j.isLt)
  · intro h
    refine le_antisymm (firstZero_le v) (Nat.not_lt.1 ?_)
    intro hlt
    exact h ⟨v.firstZero, hlt⟩ (eq_zero_of_eq_firstZero rfl)

/-- The position of the first zero depends on which entries are zero only. -/
theorem firstZero_congr (h : ∀ j, v j = 0 ↔ w j = 0) : v.firstZero = w.firstZero := by
  rcases lt_trichotomy v.firstZero w.firstZero with hlt | heq | hgt
  · have hn : v.firstZero < n := lt_of_lt_of_le hlt (firstZero_le w)
    have hv : v ⟨v.firstZero, hn⟩ = 0 := eq_zero_of_eq_firstZero rfl
    exact absurd ((h _).1 hv) (ne_zero_of_lt_firstZero hlt)
  · exact heq
  · have hn : w.firstZero < n := lt_of_lt_of_le hgt (firstZero_le v)
    have hw : w ⟨w.firstZero, hn⟩ = 0 := eq_zero_of_eq_firstZero rfl
    exact absurd ((h _).2 hw) (ne_zero_of_lt_firstZero hgt)

end Vec

/-- No diagonal entry before the first zero on the diagonal is zero. -/
theorem Mat.ne_zero_of_lt_firstZero {a : Mat ℝ n n} {j : Fin n} (h : j.val < a.diagonal.firstZero) :
    a j j ≠ 0 := by
  have hne := Vec.ne_zero_of_lt_firstZero h
  rwa [diagonal_apply] at hne

/-! ### Products with triangular matrices -/

section Triangular

variable {r : Matrix (Fin n) (Fin n) ℝ} (hr : r.IsUpperTriangular)

include hr

/-- Row `l` of the product with a triangular matrix. -/
theorem mulVec_triangular (z : Fin n → ℝ) (l : Fin n) :
    (r *ᵥ z) l = r l l * z l + ∑ i : Fin n, if l.val + 1 ≤ i.val then r l i * z i else 0 := by
  rw [← Exact.sum_ge fun i => r l i * z i]
  change ∑ i, r l i * z i = _
  refine Finset.sum_congr rfl ?_
  intro i _
  by_cases hli : l ≤ i
  · rw [if_pos (show l.val ≤ i.val from hli)]
  · have hzero : r l i = 0 := hr (not_le.1 hli)
    rw [if_neg (show ¬ l.val ≤ i.val from hli), hzero, zero_mul]

/-- Row `l` of the product with a transposed triangular matrix. -/
theorem transpose_mulVec_triangular (z : Fin n → ℝ) (l : Fin n) :
    (rᵀ *ᵥ z) l = (∑ i : Fin n, if i.val < l.val then r i l * z i else 0) + r l l * z l := by
  rw [← Exact.sum_lt_succ fun i => r i l * z i]
  change ∑ i, r i l * z i = _
  refine Finset.sum_congr rfl ?_
  intro i _
  by_cases hil : i ≤ l
  · rw [if_pos (Nat.lt_succ_of_le hil)]
  · have hzero : r i l = 0 := hr (not_le.1 hil)
    rw [if_neg (fun h => hil (Nat.le_of_lt_succ h)), hzero, zero_mul]

end Triangular

namespace Subproblem

/-! ### The leading part of a triangular system -/

/-- One step of back substitution finds an unknown and takes it out of the equations above. -/
theorem substitute_apply (r : Mat ℝ n n) (j : Fin n) (w : Vec ℝ n) (i : Fin n) :
    substitute r j w i =
      if i = j then w j / r j j else if i < j then w i - r i j * (w j / r j j) else w i := by
  rw [substitute, Vec.of_apply]

/-- The state of the substitution when the columns from `k` on are done: the equations from `k` on
hold, and in the others the shares of the components from `k` on have been taken out. -/
structure Substituted (r : Mat ℝ n n) (rank : Nat) (b w : Vec ℝ n) (k : Nat) : Prop where
  outside (l : Fin n) : rank ≤ l.val → w l = 0
  solved (l : Fin n) : l.val < rank → k ≤ l.val →
    r l l * w l + (∑ i : Fin n, if l.val + 1 ≤ i.val then r l i * w i else 0) = b l
  pending (l : Fin n) : l.val < rank → l.val < k →
    w l + (∑ i : Fin n, if k ≤ i.val then r l i * w i else 0) = b l

/-- One step of the substitution. -/
theorem Substituted.step {r : Mat ℝ n n} {rank : Nat} {b w : Vec ℝ n} {j : Fin n}
    (h : Substituted r rank b w (j + 1)) (hdiag : j.val < rank → r j j ≠ 0) :
    Substituted r rank b (if j.val < rank then substitute r j w else w) j := by
  by_cases hj : j.val < rank
  · rw [if_pos hj]
    -- components after `j` stay as they are
    have hafter : ∀ i : Fin n, j.val + 1 ≤ i.val → substitute r j w i = w i := by
      intro i hi
      have hne : ¬ i = j := fun h => absurd (congrArg Fin.val h) (by omega)
      have hlt : ¬ i < j := fun h => absurd (show i.val < j.val from h) (by omega)
      rw [substitute_apply, if_neg hne, if_neg hlt]
    have hself : substitute r j w j = w j / r j j := by rw [substitute_apply, if_pos rfl]
    have htail : ∀ (l : Fin n) (k : Nat), j.val + 1 ≤ k →
        (∑ i : Fin n, if k ≤ i.val then r l i * substitute r j w i else 0) =
          ∑ i : Fin n, if k ≤ i.val then r l i * w i else 0 := by
      intro l k hk
      refine Exact.sum_ite_congr ?_
      intro i hi
      rw [hafter i (by omega)]
    refine ⟨?_, ?_, ?_⟩
    · intro l hl
      rw [hafter l (by omega)]
      exact h.outside l hl
    · intro l hl hjl
      obtain heq | hlt := Nat.eq_or_lt_of_le hjl
      · obtain rfl : j = l := Fin.ext heq
        have hpending := h.pending j hl (Nat.lt_succ_self _)
        rw [htail j _ le_rfl, hself, mul_div_cancel₀ _ (hdiag hj)]
        exact hpending
      · rw [htail l _ (by omega), hafter l hlt]
        exact h.solved l hl hlt
    · intro l hl hlj
      have hpending := h.pending l hl (Nat.lt_succ_of_lt hlj)
      have hne : ¬ l = j := fun h => absurd (congrArg Fin.val h) (by omega)
      rw [Exact.sum_ge fun i => r l i * substitute r j w i, htail l _ le_rfl, hself,
        substitute_apply, if_neg hne, if_pos (show l < j from hlj), ← hpending]
      ring
  · -- the components from the rank on are zero, and so are their shares
    rw [if_neg hj]
    refine ⟨h.outside, fun l hl hjl => h.solved l hl (by omega), ?_⟩
    intro l hl hlj
    have hpending := h.pending l hl (Nat.lt_succ_of_lt hlj)
    rw [Exact.sum_ge fun i => r l i * w i, h.outside j (Nat.not_lt.1 hj), mul_zero, zero_add]
    exact hpending

variable {sp : Subproblem ℝ n}

/-- In the order of the columns, the Gauss-Newton step solves the leading part of the system up to
the first zero on the diagonal, and the other components are zero. -/
theorem mulVec_gaussNewton (hbij : Function.Bijective sp.order.get) (j : Fin n) :
    (sp.rank ≤ j.val → sp.gaussNewton (sp.order j) = 0) ∧
      (j.val < sp.rank →
        (sp.r.upper *ᵥ (sp.gaussNewton.get ∘ sp.order.get)) j = sp.rhs j) := by
  have hdiag : ∀ l : Fin n, l.val < sp.rank → sp.r l l ≠ 0 := fun _ => Mat.ne_zero_of_lt_firstZero
  have hloop := foldr_invariant
    (f := fun (l : Fin n) w => if l.val < sp.rank then substitute sp.r l w else w)
    (b := Vec.of fun l => if l.val < sp.rank then sp.rhs l else 0)
    (motive := fun k w => Substituted sp.r sp.rank sp.rhs w k)
    ⟨fun l hl => by rw [Vec.of_apply, if_neg (Nat.not_lt.2 hl)],
      fun l _ hl => absurd l.isLt (Nat.not_lt.2 hl),
      fun l hl _ => by
        have hnone : (∑ i : Fin n, if n ≤ i.val then sp.r l i *
            (Vec.of fun i => if i.val < sp.rank then sp.rhs i else 0) i else 0) = 0 :=
          Finset.sum_eq_zero fun i _ => if_neg (Nat.not_le.2 i.isLt)
        rw [hnone, add_zero, Vec.of_apply, if_pos hl]⟩
    fun l w hw => hw.step (hdiag l)
  -- the step is the result of the loop, put back into the order of the unknowns
  set y := Fin.foldr n (fun (l : Fin n) w => if l.val < sp.rank then substitute sp.r l w else w)
    (Vec.of fun l => if l.val < sp.rank then sp.rhs l else 0) with hy
  have hstep : ∀ l, sp.gaussNewton (sp.order l) = y l := fun l =>
    Vec.scatter_apply hbij.injective y l
  have hcomp : sp.gaussNewton.get ∘ sp.order.get = y.get := funext hstep
  refine ⟨fun hj => (hstep j).trans (hloop.outside j hj), ?_⟩
  intro hj
  have hsolved := hloop.solved j hj (Nat.zero_le _)
  have hupper : (∑ i : Fin n, if j.val + 1 ≤ i.val then sp.r.upper j i * y i else 0) =
      ∑ i : Fin n, if j.val + 1 ≤ i.val then sp.r j i * y i else 0 := by
    refine Exact.sum_ite_congr ?_
    intro i hi
    rw [sp.r.upper_of_le (Fin.le_def.2 (by omega))]
  rw [hcomp, mulVec_triangular (NormalEquations.isUpperTriangular_upper sp.r), hupper,
    sp.r.upper_of_le le_rfl]
  exact hsolved

/-! ### Transposed systems -/

/-- The state of a solution from the first unknown on when the unknowns before `k` are known: the
equations before `k` hold, and the other components are still those of the right hand side. -/
structure TransposeSolved (r : Mat ℝ n n) (w z : Vec ℝ n) (k : Nat) : Prop where
  pending (l : Fin n) : k ≤ l.val → z l = w l
  solved (l : Fin n) : l.val < k →
    (∑ i : Fin n, if i.val < l.val then r i l * z i else 0) + r l l * z l = w l

/-- One pass makes equation `j` hold, without touching the ones before. -/
theorem TransposeSolved.step {r : Mat ℝ n n} {w z : Vec ℝ n} {j : Fin n}
    (h : TransposeSolved r w z j) (hdiag : r j j ≠ 0) :
    TransposeSolved r w
      (z.set j ((z j - sumWhere (· < j) (fun i => r i j * z i)) / r j j)) (j + 1) := by
  set x := (z j - sumWhere (· < j) (fun i => r i j * z i)) / r j j with hx
  have hkeep : ∀ i : Fin n, i ≠ j → z.set j x i = z i := by
    intro i hi
    rw [Vec.set_apply, if_neg hi]
  have hhead : ∀ l : Fin n, l.val ≤ j.val →
      (∑ i : Fin n, if i.val < l.val then r i l * z.set j x i else 0) =
        ∑ i : Fin n, if i.val < l.val then r i l * z i else 0 := by
    intro l hl
    refine Exact.sum_ite_congr ?_
    intro i hi
    rw [hkeep i (Fin.ne_of_val_ne (by omega))]
  constructor
  · intro l hl
    rw [hkeep l (Fin.ne_of_val_ne (by omega))]
    exact h.pending l (by omega)
  · intro l hl
    rw [hhead l (by omega)]
    by_cases hlj : l = j
    · subst hlj
      have hself : r l l * x = w l - ∑ i : Fin n, if i.val < l.val then r i l * z i else 0 := by
        rw [hx, mul_div_cancel₀ _ hdiag, h.pending l le_rfl, Exact.sumWhere_eq]
        rfl
      rw [Vec.set_apply, if_pos rfl, hself, add_sub_cancel]
    · have hne : l.val ≠ j.val := Fin.val_ne_of_ne hlj
      rw [hkeep l hlj]
      exact h.solved l (by omega)

/-- `solveTransposed` solves the transposed system, if no diagonal entry is zero. -/
theorem transpose_mulVec_solveTransposed {r : Mat ℝ n n} (hdiag : ∀ j, r j j ≠ 0) (w : Vec ℝ n) :
    r.upperᵀ *ᵥ (solveTransposed r w).get = w.get := by
  have hloop := foldl_invariant
    (f := fun (z : Vec ℝ n) j => z.set j ((z j - sumWhere (· < j) (fun i => r i j * z i)) / r j j))
    (b := w) (motive := fun k z => TransposeSolved r w z k)
    ⟨fun _ _ => rfl, fun l hl => absurd hl (Nat.not_lt_zero _)⟩
    fun j z hz => hz.step (hdiag j)
  funext l
  have hupper : (∑ i : Fin n, if i.val < l.val then r.upper i l * solveTransposed r w i else 0) =
      ∑ i : Fin n, if i.val < l.val then r i l * solveTransposed r w i else 0 := by
    refine Exact.sum_ite_congr ?_
    intro i hi
    rw [r.upper_of_le (Fin.le_def.2 hi.le)]
  rw [transpose_mulVec_triangular (NormalEquations.isUpperTriangular_upper r), hupper,
    r.upper_of_le le_rfl]
  exact hloop.solved l l.isLt

/-- The factor `S` of a damped solution. -/
def factor (s : DampedSolution ℝ n) : Matrix (Fin n) (Fin n) ℝ :=
  Matrix.of fun i j => if i < j then s.r j i else if i = j then s.sdiag j else 0

/-- Below its diagonal the damped triangle is stored, so above it the transpose is. -/
theorem factor_of_lt (s : DampedSolution ℝ n) {i j : Fin n} (h : i < j) :
    factor s i j = s.r j i := if_pos h

/-- The diagonal of the damped triangle is stored apart. -/
theorem factor_self (s : DampedSolution ℝ n) (j : Fin n) : factor s j j = s.sdiag j :=
  (if_neg (lt_irrefl j)).trans (if_pos rfl)

/-- The damped triangle is upper triangular. -/
theorem isUpperTriangular_factor (s : DampedSolution ℝ n) : (factor s).IsUpperTriangular := by
  intro i j hij
  have hji : j < i := hij
  exact (if_neg hji.not_gt).trans (if_neg hji.ne')

/-- One step of forward substitution finds an unknown and takes it out of the equations below. -/
theorem substituteLower_apply (s : DampedSolution ℝ n) (z : Vec ℝ n) (j i : Fin n) :
    substituteLower s z j i =
      if i = j then z j / s.sdiag j
      else if j < i then z i - s.r i j * (z j / s.sdiag j) else z i := by
  rw [substituteLower, Vec.of_apply]

/-- The state of the substitution when the columns before `k` are done: the equations before `k`
hold, and in the others the shares of the components before `k` have been taken out. -/
structure LowerSubstituted (s : DampedSolution ℝ n) (w z : Vec ℝ n) (k : Nat) : Prop where
  pending (l : Fin n) : k ≤ l.val →
    (∑ i : Fin n, if i.val < k then s.r l i * z i else 0) + z l = w l
  solved (l : Fin n) : l.val < k →
    (∑ i : Fin n, if i.val < l.val then s.r l i * z i else 0) + s.sdiag l * z l = w l

/-- One pass of the substitution. -/
theorem LowerSubstituted.step {s : DampedSolution ℝ n} {w z : Vec ℝ n} {j : Fin n}
    (h : LowerSubstituted s w z j) (hdiag : s.sdiag j ≠ 0) :
    LowerSubstituted s w (substituteLower s z j) (j + 1) := by
  -- components before `j` stay as they are
  have hbefore : ∀ i : Fin n, i.val < j.val → substituteLower s z j i = z i := by
    intro i hi
    have hne : ¬ i = j := Fin.ne_of_val_ne (by omega)
    have hlt : ¬ j < i := fun h => absurd (show j.val < i.val from h) (by omega)
    rw [substituteLower_apply, if_neg hne, if_neg hlt]
  have hself : substituteLower s z j j = z j / s.sdiag j := by
    rw [substituteLower_apply, if_pos rfl]
  have hhead : ∀ (l : Fin n) (k : Nat), k ≤ j.val →
      (∑ i : Fin n, if i.val < k then s.r l i * substituteLower s z j i else 0) =
        ∑ i : Fin n, if i.val < k then s.r l i * z i else 0 := by
    intro l k hk
    refine Exact.sum_ite_congr ?_
    intro i hi
    rw [hbefore i (by omega)]
  constructor
  · intro l hl
    have hne : ¬ l = j := Fin.ne_of_val_ne (by omega)
    have hlt : j < l := Fin.lt_def.2 (by omega)
    rw [Exact.sum_lt_succ fun i => s.r l i * substituteLower s z j i, hhead l _ le_rfl, hself,
      substituteLower_apply, if_neg hne, if_pos hlt, ← h.pending l (by omega)]
    ring
  · intro l hl
    rw [hhead l _ (by omega)]
    obtain hlt | heq := Nat.lt_succ_iff_lt_or_eq.1 hl
    · rw [hbefore l hlt]
      exact h.solved l hlt
    · obtain rfl : l = j := Fin.ext heq
      rw [hself, mul_div_cancel₀ _ hdiag]
      exact h.pending l le_rfl

/-- The loop of `substituteLower` solves the transposed system of a damped solution, if no diagonal
entry is zero. -/
theorem transpose_mulVec_substituteLower {s : DampedSolution ℝ n} (hdiag : ∀ j, s.sdiag j ≠ 0)
    (w : Vec ℝ n) : (factor s)ᵀ *ᵥ (Fin.foldl n (substituteLower s) w).get = w.get := by
  have hloop := foldl_invariant (f := substituteLower s) (b := w)
    (motive := fun k z => LowerSubstituted s w z k)
    ⟨fun l _ => by simp only [Nat.not_lt_zero, if_false, Finset.sum_const_zero, zero_add],
      fun l hl => absurd hl (Nat.not_lt_zero _)⟩
    fun j z hz => hz.step (hdiag j)
  set z := Fin.foldl n (substituteLower s) w with hz
  funext l
  have hfactor : (∑ i : Fin n, if i.val < l.val then factor s i l * z i else 0) =
      ∑ i : Fin n, if i.val < l.val then s.r l i * z i else 0 := by
    refine Exact.sum_ite_congr ?_
    intro i hi
    rw [factor_of_lt s (Fin.lt_def.2 hi)]
  rw [transpose_mulVec_triangular (isUpperTriangular_factor s), factor_self, hfactor]
  exact hloop.solved l l.isLt

end Subproblem

/-! ### Back substitution -/

namespace DampedSolve

/-- The state of the back substitution when the unknowns from `k` on are known: those from the rank
on are zero, the equations from `k` up to the rank hold, and the other components are still those of
the right hand side. -/
structure BackSubstituted (s : DampedSolution ℝ n) (rank : Nat) (w z : Vec ℝ n) (k : Nat) : Prop
    where
  pending (l : Fin n) : l.val < k → z l = w l
  outside (l : Fin n) : k ≤ l.val → rank ≤ l.val → z l = 0
  solved (l : Fin n) : k ≤ l.val → l.val < rank →
    s.sdiag l * z l + (∑ i : Fin n, if l.val + 1 ≤ i.val then s.r i l * z i else 0) = w l

/-- One pass determines the unknown `j`, without touching the ones after it. -/
theorem BackSubstituted.step {s : DampedSolution ℝ n} {rank : Nat} {w z : Vec ℝ n} {j : Fin n}
    (h : BackSubstituted s rank w z (j + 1)) (hdiag : j.val < rank → s.sdiag j ≠ 0) :
    BackSubstituted s rank w (z.set j <|
      if j.val < rank then
        (z j - sumWhere (fun i => j < i ∧ i.val < rank) (fun i => s.r i j * z i)) / s.sdiag j
      else 0) j := by
  set x := if j.val < rank then
      (z j - sumWhere (fun i => j < i ∧ i.val < rank) (fun i => s.r i j * z i)) / s.sdiag j
    else 0 with hx
  have hkeep : ∀ i : Fin n, i ≠ j → z.set j x i = z i := by
    intro i hi
    rw [Vec.set_apply, if_neg hi]
  have hself : z.set j x j = x := by rw [Vec.set_apply, if_pos rfl]
  have htail : ∀ l : Fin n, j.val ≤ l.val →
      (∑ i : Fin n, if l.val + 1 ≤ i.val then s.r i l * z.set j x i else 0) =
        ∑ i : Fin n, if l.val + 1 ≤ i.val then s.r i l * z i else 0 := by
    intro l hl
    refine Exact.sum_ite_congr ?_
    intro i hi
    rw [hkeep i (Fin.ne_of_val_ne (by omega))]
  refine ⟨?_, ?_, ?_⟩
  · intro l hl
    rw [hkeep l (Fin.ne_of_val_ne (by omega))]
    exact h.pending l (by omega)
  · intro l hl hrank
    obtain heq | hlt := Nat.eq_or_lt_of_le hl
    · obtain rfl : j = l := Fin.ext heq
      rw [hself, hx, if_neg (Nat.not_lt.2 hrank)]
    · rw [hkeep l (Fin.ne_of_val_ne (by omega))]
      exact h.outside l hlt hrank
  · intro l hl hrank
    rw [htail l hl]
    obtain heq | hlt := Nat.eq_or_lt_of_le hl
    · obtain rfl : j = l := Fin.ext heq
      -- the components from the rank on are zero, so they may be left out of the sum
      have hsum : sumWhere (fun i => j < i ∧ i.val < rank) (fun i => s.r i j * z i) =
          ∑ i : Fin n, if j.val + 1 ≤ i.val then s.r i j * z i else 0 := by
        rw [Exact.sumWhere_eq]
        refine Finset.sum_congr rfl ?_
        intro i _
        by_cases hji : j.val + 1 ≤ i.val
        · by_cases hi : i.val < rank
          · rw [if_pos ⟨hji, hi⟩, if_pos hji]
          · rw [if_neg fun hboth => hi hboth.2, if_pos hji, h.outside i hji (Nat.not_lt.1 hi),
              mul_zero]
        · rw [if_neg fun hboth => hji hboth.1, if_neg hji]
      rw [hself, hx, if_pos hrank, mul_div_cancel₀ _ (hdiag hrank), hsum, sub_add_cancel]
      exact h.pending j (Nat.lt_succ_self _)
    · rw [hkeep l (Fin.ne_of_val_ne (by omega))]
      exact h.solved l hlt hrank

/-- `backSubstitute` solves the leading part of the system of a damped solution, if no diagonal
entry there is zero, and the other components are zero. -/
theorem mulVec_backSubstitute {s : DampedSolution ℝ n} {rank : Nat}
    (hdiag : ∀ j : Fin n, j.val < rank → s.sdiag j ≠ 0) (w : Vec ℝ n) (j : Fin n) :
    (rank ≤ j.val → backSubstitute s.r s.sdiag rank w j = 0) ∧
      (j.val < rank →
        (Subproblem.factor s *ᵥ (backSubstitute s.r s.sdiag rank w).get) j = w j) := by
  have hloop := foldr_invariant
    (f := fun j (z : Vec ℝ n) => z.set j <|
      if j.val < rank then
        (z j - sumWhere (fun i => j < i ∧ i.val < rank) (fun i => s.r i j * z i)) / s.sdiag j
      else 0)
    (b := w) (motive := fun k z => BackSubstituted s rank w z k)
    ⟨fun _ _ => rfl, fun l hl => absurd l.isLt (Nat.not_lt.2 hl),
      fun l hl => absurd l.isLt (Nat.not_lt.2 hl)⟩
    fun j z hz => hz.step (hdiag j)
  refine ⟨hloop.outside j (Nat.zero_le _), ?_⟩
  intro hj
  set z := backSubstitute s.r s.sdiag rank w
  have hfactor : (∑ i : Fin n, if j.val + 1 ≤ i.val then Subproblem.factor s j i * z i else 0) =
      ∑ i : Fin n, if j.val + 1 ≤ i.val then s.r i j * z i else 0 := by
    refine Exact.sum_ite_congr ?_
    intro i hi
    rw [Subproblem.factor_of_lt s (Fin.lt_def.2 hi)]
  rw [mulVec_triangular (Subproblem.isUpperTriangular_factor s), Subproblem.factor_self, hfactor]
  exact hloop.solved j (Nat.zero_le _) hj

end DampedSolve

end NonlinearSolve

import Mathlib.Analysis.SpecialFunctions.Sqrt
import NonlinearSolve.Linear.RankOne
import NonlinearSolve.Proofs.Linear.Rotations

/-! # Rank-one updates are orthogonal transformations

The two sequences of rotations of a rank-one update are the products `firstProduct` and
`secondProduct` of orthogonal matrices, which can be formed from the codes alone. The updated
trapezoid is `S + u vᵀ` multiplied with them, and so is every matrix to which the rotations are
applied again (`Trapezoid.rankOne_updates`). -/

namespace NonlinearSolve

open Matrix Scalar

variable {m r k : Nat}

/-! ### The products of the rotations -/

section Products

/-- The product of the rotations of the first sequence in the columns from `j` on. The rotation of
the last column comes first, as it is done first. -/
noncomputable def firstProduct (c : Vec ℝ k) (j : Nat) : Matrix (Fin (k + 1)) (Fin (k + 1)) ℝ :=
  ((List.finRange k).drop j).foldr (fun i M => M * plane (Rotation.decode (c i)).inverse i) 1

/-- The product of the rotations of the second sequence in the columns before `j`. -/
noncomputable def secondProduct (c : Vec ℝ k) (j : Nat) : Matrix (Fin (k + 1)) (Fin (k + 1)) ℝ :=
  ((List.finRange k).take j).foldl (fun M i => M * plane (Rotation.decode (c i)) i) 1

/-- Beyond the last column there is no rotation of the first sequence. -/
theorem firstProduct_last (c : Vec ℝ k) : firstProduct c k = 1 := by
  rw [firstProduct, List.drop_eq_nil_of_le (by rw [List.length_finRange])]
  rfl

/-- The rotation of column `j` comes after those of the columns behind it. -/
theorem firstProduct_apply (c : Vec ℝ k) (j : Fin k) :
    firstProduct c j =
      firstProduct c (j + 1) * plane (Rotation.decode (c j)).inverse j := by
  have hj : j.val < (List.finRange k).length := by
    rw [List.length_finRange]
    exact j.isLt
  rw [firstProduct, List.drop_eq_getElem_cons hj, List.foldr_cons, List.getElem_finRange]
  rfl

/-- Before the first column there is no rotation of the second sequence. -/
theorem secondProduct_zero (c : Vec ℝ k) : secondProduct c 0 = 1 := rfl

/-- The rotation of column `j` comes after those of the columns before it. -/
theorem secondProduct_succ (c : Vec ℝ k) (j : Fin k) :
    secondProduct c (j + 1) = secondProduct c j * plane (Rotation.decode (c j)) j := by
  have hj : j.val < (List.finRange k).length := by
    rw [List.length_finRange]
    exact j.isLt
  rw [secondProduct, ← List.take_append_getElem hj, List.foldl_append, List.getElem_finRange]
  rfl

/-- The product depends on the codes of the columns from `j` on only. -/
theorem firstProduct_congr {c d : Vec ℝ k} {j : Nat} (h : ∀ i : Fin k, j ≤ i.val → c i = d i) :
    firstProduct c j = firstProduct d j := by
  refine List.foldr_ext _ _ _ ?_
  intro i hi M
  obtain ⟨l, hl, rfl⟩ := List.mem_drop_iff_getElem.1 hi
  rw [List.getElem_finRange] at *
  rw [h _ (Nat.le_add_right j l)]

/-- The product depends on the codes of the columns before `j` only. -/
theorem secondProduct_congr {c d : Vec ℝ k} {j : Nat} (h : ∀ i : Fin k, i.val < j → c i = d i) :
    secondProduct c j = secondProduct d j := by
  refine List.foldl_ext _ _ _ ?_
  intro M i hi
  obtain ⟨l, hl, rfl⟩ := List.mem_take_iff_getElem.1 hi
  rw [List.getElem_finRange] at *
  rw [h _ (Nat.lt_min.1 hl).1]

/-- A product of orthogonal matrices is orthogonal. -/
theorem transpose_mul_mul_eq_one {n : Nat} {a b : Matrix (Fin n) (Fin n) ℝ} (ha : aᵀ * a = 1)
    (hb : bᵀ * b = 1) : (a * b)ᵀ * (a * b) = 1 := by
  rw [transpose_mul, mul_assoc, ← mul_assoc aᵀ, ha, one_mul, hb]

/-- A product of rotations of the first sequence is orthogonal. -/
theorem firstProduct_orthogonal (c : Vec ℝ k) (j : Nat) :
    (firstProduct c j)ᵀ * firstProduct c j = 1 := by
  rw [firstProduct]
  induction (List.finRange k).drop j with
  | nil => exact (congrArg (· * 1) transpose_one).trans (one_mul 1)
  | cons i l ih =>
    rw [List.foldr_cons]
    exact transpose_mul_mul_eq_one ih
      (plane_transpose_mul i (Rotation.isUnit_decode (c i)).inverse)

/-- A product of rotations of the second sequence is orthogonal. -/
theorem secondProduct_orthogonal (c : Vec ℝ k) (j : Nat) :
    (secondProduct c j)ᵀ * secondProduct c j = 1 := by
  rw [secondProduct]
  induction (List.finRange k).take j using List.reverseRecOn with
  | nil => exact (congrArg (· * 1) transpose_one).trans (one_mul 1)
  | append_singleton l i ih =>
    rw [List.foldl_append]
    exact transpose_mul_mul_eq_one ih (plane_transpose_mul i (Rotation.isUnit_decode (c i)))

end Products

/-! ### Doing the rotations again -/

namespace ColumnRotations

/-- Combining a column with the last one is a product with a plane rotation. -/
theorem toMatrix_combine (g : Rotation ℝ) (a : Mat ℝ r (k + 1)) (j : Fin k) :
    (combine g.apply a j).toMatrix = a.toMatrix * plane g j := by
  ext i q
  rw [mul_plane_apply, Mat.toMatrix_apply, combine, Mat.setCol_apply, Mat.setCol_apply]
  simp only [Vec.map_apply, Vec.of_apply, Mat.toMatrix_apply]

/-- All rotations of a rank-one update with `k + 1` columns. -/
noncomputable def matrix (q : ColumnRotations ℝ (k + 1)) :
    Matrix (Fin (k + 1)) (Fin (k + 1)) ℝ :=
  firstProduct q.first 0 * secondProduct q.second k

/-- Both sequences together are orthogonal. -/
theorem matrix_orthogonal (q : ColumnRotations ℝ (k + 1)) : q.matrixᵀ * q.matrix = 1 :=
  transpose_mul_mul_eq_one (firstProduct_orthogonal _ _) (secondProduct_orthogonal _ _)

/-- Applying the rotations is multiplying with their product. -/
theorem toMatrix_apply (q : ColumnRotations ℝ (k + 1)) (a : Mat ℝ r (k + 1)) :
    (q.apply a).toMatrix = a.toMatrix * q.matrix := by
  obtain ⟨first, second⟩ := q
  change Vec ℝ k at first second
  have hinverse : ∀ j : Fin k, (Rotation.decode (first j)).applyInverse =
      (Rotation.decode (first j)).inverse.apply :=
    fun j => funext fun x => funext fun y => Rotation.applyInverse_eq _ x y
  have hfirst := foldr_invariant
    (f := fun j b => combine (Rotation.decode (first j)).applyInverse b j) (b := a)
    (motive := fun j (b : Mat ℝ r (k + 1)) => b.toMatrix = a.toMatrix * firstProduct first j)
    (by rw [firstProduct_last, Matrix.mul_one]) fun j b hb => by
      rw [hinverse, toMatrix_combine, hb, Matrix.mul_assoc, ← firstProduct_apply]
  refine foldl_invariant (motive := fun j (b : Mat ℝ r (k + 1)) =>
    b.toMatrix = a.toMatrix * (firstProduct first 0 * secondProduct second j)) ?_
    fun j b hb => ?_
  · rw [secondProduct_zero, mul_one]
    exact hfirst
  · rw [toMatrix_combine, hb, Matrix.mul_assoc, mul_assoc, ← secondProduct_succ]

end ColumnRotations

/-! ### The update -/

namespace RankOne

/-- The trapezoid of an update on its way, with the spike as its last column. -/
noncomputable def State.matrix (t : State ℝ m k) : Matrix (Fin m) (Fin (k + 1)) ℝ :=
  Matrix.of fun i q => if q = Fin.last k then t.spike i else t.s i q

/-- The last column of the matrix of a state is its spike. -/
theorem State.matrix_last (t : State ℝ m k) (i : Fin m) : t.matrix i (Fin.last k) = t.spike i :=
  if_pos rfl

/-- The other columns of the matrix of a state are those of its trapezoid. -/
theorem State.matrix_castSucc (t : State ℝ m k) (i : Fin m) (j : Fin k) :
    t.matrix i j.castSucc = t.s i j.castSucc := if_neg (Fin.castSucc_lt_last j).ne

/-- Above the diagonal of column `j` the spike is left alone. -/
theorem spike_combine_of_lt (f : ℝ → ℝ → ℝ × ℝ) (t : State ℝ m k) {j : Fin k} {i : Fin m}
    (hi : i.val < j.val) : (combine f t j).spike i = t.spike i := by
  simp only [combine, Vec.map_apply, Vec.of_apply, if_neg (Nat.not_le.2 hi)]

/-- From the diagonal of column `j` on the spike is rotated with that column. -/
theorem spike_combine_of_le (f : ℝ → ℝ → ℝ × ℝ) (t : State ℝ m k) {j : Fin k} {i : Fin m}
    (hi : j.val ≤ i.val) :
    (combine f t j).spike i = (f (t.s i j.castSucc) (t.spike i)).2 := by
  simp only [combine, Vec.map_apply, Vec.of_apply, if_pos hi]

/-- Above the diagonal there is nothing to combine. -/
theorem matrix_combine (g : Rotation ℝ) (t : State ℝ m k) (j : Fin k)
    (hzero : ∀ i : Fin m, i.val < j.val → t.spike i = 0) :
    (combine g.apply t j).matrix = t.matrix * plane g j := by
  ext i q
  rw [mul_plane_apply, State.matrix_last, State.matrix_castSucc]
  rcases eq_or_ne q (Fin.last k) with rfl | hq
  · rw [if_pos rfl, State.matrix_last]
    rcases lt_or_ge i.val j.val with hi | hi
    · have habove : t.s i j.castSucc = 0 := t.s.apply_of_lt hi
      rw [spike_combine_of_lt _ _ hi, hzero i hi, habove]
      simp only [Rotation.apply, mul_zero, add_zero]
    · rw [spike_combine_of_le _ _ hi]
  · obtain ⟨q, rfl⟩ := Fin.exists_castSucc_eq.2 hq
    have hs : (combine g.apply t j).s i q.castSucc =
        if q.castSucc = j.castSucc ∧ q.castSucc.val ≤ i.val then
          (if j.val ≤ i.val then g.apply (t.s i j.castSucc) (t.spike i)
            else (t.s i j.castSucc, t.spike i)).1
        else t.s i q.castSucc := by
      simp only [combine, Trapezoid.setCol_apply, Vec.map_apply, Vec.of_apply]
    rw [if_neg hq, State.matrix_castSucc, State.matrix_castSucc, hs]
    by_cases hqj : q.castSucc = j.castSucc
    · rw [if_pos hqj]
      obtain rfl : q = j := Fin.castSucc_injective k hqj
      rcases lt_or_ge i.val q.val with hi | hi
      · have habove : t.s i q.castSucc = 0 := t.s.apply_of_lt hi
        rw [if_neg fun h => hi.not_ge h.2, hzero i hi, habove]
        simp only [Rotation.apply, mul_zero, add_zero]
      · rw [if_pos ⟨rfl, hi⟩, if_pos hi]
    · rw [if_neg hqj, if_neg fun h => hqj h.1]

/-! #### The first sequence -/

/-- The columns from `j` on are done: all of `v` that was in them is in its last entry. -/
structure Collected (s : Trapezoid ℝ m (k + 1)) (v : Vec ℝ (k + 1)) (j : Nat) (t : State ℝ m k) :
    Prop where
  spike_zero (i : Fin m) : i.val < j → t.spike i = 0
  pending (i : Fin k) : i.val < j → t.first i = v i.castSucc
  matrix_eq : t.matrix = s.full.toMatrix * firstProduct t.first j
  vecMul_eq : v.get ᵥ* firstProduct t.first j =
    fun q => if q = Fin.last k then t.last else if q.val < j then v q else 0

/-- At the start nothing is done, and the spike is the last column. -/
theorem collected_start (s : Trapezoid ℝ m (k + 1)) (v : Vec ℝ (k + 1)) :
    Collected s v k (start s v) where
  spike_zero i hi := s.above i (Fin.last k) hi
  pending i _ := Vec.of_apply _ i
  matrix_eq := by
    rw [firstProduct_last, Matrix.mul_one]
    ext i q
    rcases eq_or_ne q (Fin.last k) with rfl | hq
    · exact State.matrix_last _ i
    · obtain ⟨q, rfl⟩ := Fin.exists_castSucc_eq.2 hq
      exact State.matrix_castSucc _ i q
  vecMul_eq := by
    rw [firstProduct_last, vecMul_one]
    funext q
    rcases eq_or_ne q (Fin.last k) with rfl | hq
    · rw [if_pos rfl]
      rfl
    · obtain ⟨q, rfl⟩ := Fin.exists_castSucc_eq.2 hq
      rw [if_neg hq, if_pos (show q.castSucc.val < k from q.isLt)]

variable (ε τ : ℝ) (z : Bool)

/-- If the entry of `v` is zero already, column `j` needs no rotation. -/
theorem Collected.skip {s : Trapezoid ℝ m (k + 1)} {v : Vec ℝ (k + 1)} {j : Fin k} {t : State ℝ m k}
    (h : Collected s v (j + 1) t) (hzero : t.first j = 0) : Collected s v j t := by
  have hvj : v j.castSucc = 0 := (h.pending j (Nat.lt_succ_self _)).symm.trans hzero
  -- a zero is the code of the identity
  have hproduct : firstProduct t.first j = firstProduct t.first (j + 1) := by
    rw [firstProduct_apply, hzero, Rotation.decode_zero, Rotation.inverse_identity,
      plane_identity, mul_one]
  refine ⟨fun i hi => h.spike_zero i (Nat.lt_succ_of_lt hi),
    fun i hi => h.pending i (Nat.lt_succ_of_lt hi), ?_, ?_⟩
  · rw [hproduct]
    exact h.matrix_eq
  · rw [hproduct, h.vecMul_eq]
    funext q
    rcases eq_or_ne q (Fin.last k) with hlast | hlast
    · rw [if_pos hlast, if_pos hlast]
    · rw [if_neg hlast, if_neg hlast]
      rcases lt_trichotomy q.val j.val with hq | hq | hq
      · rw [if_pos (Nat.lt_succ_of_lt hq), if_pos hq]
      · obtain rfl : q = j.castSucc := Fin.ext hq
        rw [if_neg (show ¬ j.castSucc.val < j.val from lt_irrefl _), hvj, ite_self]
      · rw [if_neg (by omega), if_neg (by omega)]

/-- The rotation of a step takes entry `j` of the row that `v` has become to zero, and moves what
was there into the last entry. -/
theorem Collected.vecMul_plane {s : Trapezoid ℝ m (k + 1)} {v : Vec ℝ (k + 1)} {j : Fin k}
    {t : State ℝ m k} (h : Collected s v (j + 1) t) :
    let g := (Rotation.annihilating t.last (t.first j)).inverse
    v.get ᵥ* firstProduct t.first (j + 1) ᵥ* plane g j =
      fun q => if q = Fin.last k then (g.apply (t.first j) t.last).2
        else if q.val < j then v q else 0 := by
  intro g
  have hjlast : j.castSucc ≠ Fin.last k := (Fin.castSucc_lt_last j).ne
  -- the two entries that the rotation acts on
  have hrow_last := congrFun h.vecMul_eq (Fin.last k)
  have hrow_j := congrFun h.vecMul_eq j.castSucc
  rw [if_pos rfl] at hrow_last
  rw [if_neg hjlast, if_pos (show j.castSucc.val < j.val + 1 from Nat.lt_succ_self _),
    ← h.pending j (Nat.lt_succ_self _)] at hrow_j
  funext q
  rw [vecMul_plane_apply, hrow_last, hrow_j]
  rcases eq_or_ne q (Fin.last k) with hlast | hlast
  · rw [if_pos hlast, if_pos hlast]
  · rw [if_neg hlast, if_neg hlast]
    rcases eq_or_ne q j.castSucc with hq | hq
    · have hannihilated := Rotation.apply_annihilating t.last (t.first j)
      rw [if_pos hq, if_neg (show ¬ q.val < j.val from hq ▸ lt_irrefl _), ← hannihilated]
      simp only [g, Rotation.apply, Rotation.inverse]
      ring
    · have hqj : q.val ≠ j.val := fun heq => hq (Fin.ext heq)
      rw [if_neg hq, congrFun h.vecMul_eq q, if_neg hlast]
      rcases lt_or_gt_of_ne hqj with hlt | hgt
      · rw [if_pos hlt, if_pos (Nat.lt_succ_of_lt hlt)]
      · rw [if_neg hgt.not_gt, if_neg (by omega)]

/-- A step of the first sequence. -/
theorem Collected.collect {s : Trapezoid ℝ m (k + 1)} {v : Vec ℝ (k + 1)} {j : Fin k}
    {t : State ℝ m k} (h : Collected s v (j + 1) t) :
    Collected s v j (collect (Numerics.exact ε τ z) j t) := by
  by_cases hzero : t.first j = 0
  · have ht : RankOne.collect (Numerics.exact ε τ z) j t = t :=
      if_pos ((Exact.beq_iff _ _).2 hzero)
    rw [ht]
    exact h.skip hzero
  · set g := Rotation.annihilating t.last (t.first j) with hg
    set code := Rotation.encode (Numerics.exact ε τ z) t.last (t.first j) with hcode
    have hdecode : Rotation.decode code = g := Rotation.decode_encode ε τ z _ _
    have happly : g.applyInverse = g.inverse.apply :=
      funext fun x => funext fun y => Rotation.applyInverse_eq g x y
    have ht : RankOne.collect (Numerics.exact ε τ z) j t =
        { combine g.inverse.apply t j with
          last := (g.inverse.apply (t.first j) t.last).2
          first := t.first.set j code } := by
      rw [← happly]
      exact if_neg (mt (Exact.beq_iff _ _).1 hzero)
    have hother : ∀ i : Fin k, i ≠ j → t.first.set j code i = t.first i := by
      intro i hi
      rw [Vec.set_apply, if_neg hi]
    -- the code is kept where the entry of `v` was, and the product grows by the rotation
    have hproduct : firstProduct (t.first.set j code) j =
        firstProduct t.first (j + 1) * plane g.inverse j := by
      have hlater : firstProduct (t.first.set j code) (j + 1) = firstProduct t.first (j + 1) :=
        firstProduct_congr fun i hi => hother i (Fin.ne_of_gt hi)
      rw [firstProduct_apply, hlater, Vec.set_apply, if_pos rfl, hdecode]
    rw [ht]
    refine ⟨?_, ?_, ?_, ?_⟩
    · intro i hi
      exact (spike_combine_of_lt _ t hi).trans (h.spike_zero i (Nat.lt_succ_of_lt hi))
    · intro i hi
      rw [← h.pending i (Nat.lt_succ_of_lt hi)]
      exact hother i (Fin.ne_of_lt hi)
    · have hcombine := matrix_combine g.inverse t j fun i hi =>
        h.spike_zero i (Nat.lt_succ_of_lt hi)
      rw [hproduct, ← Matrix.mul_assoc, ← h.matrix_eq, ← hcombine]
      rfl
    · rw [hproduct, ← vecMul_vecMul]
      exact h.vecMul_plane

/-! #### The second sequence -/

/-- In the columns before `j` the spike has been eliminated by rotations of the matrix `a`. -/
structure Eliminated (a : Matrix (Fin m) (Fin (k + 1)) ℝ) (first : Vec ℝ k) (j : Nat)
    (t : State ℝ m k) : Prop where
  spike_zero (i : Fin m) : i.val < j → t.spike i = 0
  first_eq : t.first = first
  matrix_eq : t.matrix = a * secondProduct t.second j

/-- A step of the second sequence. -/
theorem Eliminated.eliminate {a : Matrix (Fin m) (Fin (k + 1)) ℝ} {first : Vec ℝ k} {j : Fin k}
    {t : State ℝ m k} (hm : k + 1 ≤ m) (h : Eliminated a first j t) :
    Eliminated a first (j + 1) (eliminate (Numerics.exact ε τ z) hm t j) := by
  have hproduct : ∀ code, secondProduct (t.second.set j code) (j + 1) =
      secondProduct t.second j * plane (Rotation.decode code) j := by
    intro code
    have hbefore : secondProduct (t.second.set j code) j = secondProduct t.second j :=
      secondProduct_congr fun i hi => by rw [Vec.set_apply, if_neg (Fin.ne_of_lt hi)]
    rw [secondProduct_succ, hbefore, Vec.set_apply, if_pos rfl]
  have hrow : ∀ i : Fin m, i.val = j.val → i = diagonalRow hm j := fun i hi => Fin.ext hi
  by_cases hzero : t.spike (diagonalRow hm j) = 0
  · -- nothing to eliminate: the code is zero, and the rotation is the identity
    have hbeq := (Exact.beq_iff _ _).2 hzero
    simp only [RankOne.eliminate, if_pos hbeq]
    refine ⟨?_, h.first_eq, ?_⟩
    · intro i hi
      obtain hlt | heq := Nat.lt_succ_iff_lt_or_eq.1 hi
      · exact h.spike_zero i hlt
      · rw [hrow i heq]
        exact hzero
    · rw [hproduct, hzero, Rotation.decode_zero, plane_identity, mul_one]
      exact h.matrix_eq
  · have hbeq := mt (Exact.beq_iff _ _).1 hzero
    simp only [RankOne.eliminate, if_neg hbeq]
    refine ⟨?_, h.first_eq, ?_⟩
    · intro i hi
      obtain hlt | heq := Nat.lt_succ_iff_lt_or_eq.1 hi
      · exact (spike_combine_of_lt _ t hlt).trans (h.spike_zero i hlt)
      · rw [hrow i heq]
        exact (spike_combine_of_le _ t (i := diagonalRow hm j) le_rfl).trans
          (Rotation.apply_annihilating _ _)
    · -- above row `j` the spike is zero, so the rotation is that of the whole columns
      have hcombine := matrix_combine
        (Rotation.annihilating (t.s (diagonalRow hm j) j.castSucc) (t.spike (diagonalRow hm j)))
        t j h.spike_zero
      rw [hproduct, Rotation.decode_encode, ← Matrix.mul_assoc, ← h.matrix_eq, ← hcombine]
      rfl

/-- When all of `v` is in the last entry, the update only concerns the last column. -/
theorem matrix_addSpike {s : Trapezoid ℝ m (k + 1)} {u : Vec ℝ m} {v : Vec ℝ (k + 1)}
    {t : State ℝ m k} (h : Collected s v 0 t) :
    (addSpike u t).matrix =
      (s.full.toMatrix + vecMulVec u.get v.get) * firstProduct t.first 0 := by
  rw [Matrix.add_mul, vecMulVec_mul, h.vecMul_eq, ← h.matrix_eq]
  ext i q
  rw [Matrix.add_apply, vecMulVec_apply]
  rcases eq_or_ne q (Fin.last k) with rfl | hq
  · rw [State.matrix_last, State.matrix_last, if_pos rfl, mul_comm]
    exact Vec.of_apply _ i
  · obtain ⟨q, rfl⟩ := Fin.exists_castSucc_eq.2 hq
    rw [State.matrix_castSucc, State.matrix_castSucc, if_neg hq, if_neg (Nat.not_lt_zero _),
      mul_zero, add_zero]
    rfl

/-- Without anything above the diagonal, the spike can go back into the last column. -/
theorem toMatrix_finish (hm : k + 1 ≤ m) {t : State ℝ m k}
    (hzero : ∀ i : Fin m, i.val < k → t.spike i = 0) :
    (finish hm t).s.full.toMatrix = t.matrix := by
  ext i q
  change (t.s.setCol (Fin.last k) t.spike) i q = _
  rw [Trapezoid.setCol_apply]
  rcases eq_or_ne q (Fin.last k) with rfl | hq
  · rw [State.matrix_last]
    rcases lt_or_ge i.val k with hi | hi
    · rw [if_neg fun h => hi.not_ge h.2, t.s.apply_of_lt hi, hzero i hi]
    · rw [if_pos ⟨rfl, hi⟩]
  · obtain ⟨q, rfl⟩ := Fin.exists_castSucc_eq.2 hq
    rw [if_neg fun h => hq h.1, State.matrix_castSucc]

end RankOne

/-- A rank-one update multiplies `S + u vᵀ` with an orthogonal matrix, and applying its rotations
again multiplies with the same matrix. -/
theorem Trapezoid.rankOne_updates (ε τ : ℝ) (z : Bool) {n : Nat} (h : n ≤ m)
    (s : Trapezoid ℝ m n) (u : Vec ℝ m) (v : Vec ℝ n) :
    ∃ G : Matrix (Fin n) (Fin n) ℝ, Gᵀ * G = 1 ∧
      (s.rankOne (Numerics.exact ε τ z) h u v).s.full.toMatrix =
        (s.full.toMatrix + vecMulVec u.get v.get) * G ∧
      ∀ {r : Nat} (a : Mat ℝ r n),
        ((s.rankOne (Numerics.exact ε τ z) h u v).rotations.apply a).toMatrix = a.toMatrix * G := by
  cases n with
  | zero =>
    -- without columns there is nothing to rotate
    refine ⟨1, by rw [transpose_one, one_mul], ?_, ?_⟩
    · ext i j
      exact j.elim0
    · intro r a
      rw [Matrix.mul_one]
      rfl
  | succ k =>
    -- the first sequence turns `v` into a multiple of the last unit vector
    have hcollected := foldr_invariant (f := RankOne.collect (Numerics.exact ε τ z))
      (motive := RankOne.Collected s v) (RankOne.collected_start s v)
      fun j t ht => ht.collect ε τ z
    set t₁ := Fin.foldr k (RankOne.collect (Numerics.exact ε τ z)) (RankOne.start s v)
    -- then the update only adds to the spike, which the second sequence cuts off at the diagonal
    have heliminated := foldl_invariant
      (f := RankOne.eliminate (Numerics.exact ε τ z) h) (b := RankOne.addSpike u t₁)
      (motive := RankOne.Eliminated
        ((s.full.toMatrix + vecMulVec u.get v.get) * firstProduct t₁.first 0) t₁.first)
      ⟨fun i hi => absurd hi (Nat.not_lt_zero _), rfl, by
        rw [secondProduct_zero, Matrix.mul_one, RankOne.matrix_addSpike hcollected]⟩
      fun j t ht => ht.eliminate ε τ z h
    set t₂ := Fin.foldl k (RankOne.eliminate (Numerics.exact ε τ z) h) (RankOne.addSpike u t₁)
    have hfinish : s.rankOne (Numerics.exact ε τ z) h u v = RankOne.finish h t₂ := rfl
    refine ⟨(RankOne.finish h t₂).rotations.matrix, ColumnRotations.matrix_orthogonal _, ?_, ?_⟩
    · rw [hfinish, RankOne.toMatrix_finish h heliminated.spike_zero, heliminated.matrix_eq,
        Matrix.mul_assoc, ← heliminated.first_eq]
      rfl
    · intro r a
      rw [hfinish, ColumnRotations.toMatrix_apply]

end NonlinearSolve

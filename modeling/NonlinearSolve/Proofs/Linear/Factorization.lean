import Mathlib.Analysis.SpecialFunctions.Sqrt
import Mathlib.LinearAlgebra.FiniteDimensional.Basic
import NonlinearSolve.Linear.PivotedQR
import NonlinearSolve.Proofs.Linear.Reflections

/-! # The factorization is one

Eliminating a column multiplies the matrix with the reflection that is then kept in that column
(`reduced_reduce`). So after any number of steps the given matrix, its columns reordered, is the
product of the reflections so far with what they have left of it (`Elimination.Factors`), and in the
end it is `Q R` with an orthogonal `Q` and an upper trapezoidal `R` (`QR.factor_factors`). The
matrix that is formed from the reflections is this `Q` (`QR.factor_reconstructs`). -/

namespace NonlinearSolve

open Matrix Scalar Householder

variable {m n : Nat}

namespace Elimination

/-! ### The reflector -/

/-- The sum of the squares of the entries from index `k` on. -/
def tailSq (c : Vec ℝ m) (k : Nat) : ℝ := ∑ r : Fin m, if k ≤ r.val then c r ^ 2 else 0

/-- A sum of squares is not negative. -/
theorem tailSq_nonneg (c : Vec ℝ m) (k : Nat) : 0 ≤ tailSq c k := by
  refine Finset.sum_nonneg ?_
  intro r _
  split
  · exact sq_nonneg _
  · exact le_rfl

/-- The squared length of the tail of a column. -/
theorem tail_dotProduct_tail (c : Vec ℝ m) (i : Fin m) : tail c i ⬝ᵥ tail c i = tailSq c i := by
  rw [dotProduct, tailSq]
  refine Finset.sum_congr rfl ?_
  intro r _
  rw [tail]
  by_cases hr : i ≤ r
  · rw [if_pos hr, if_pos (show i.val ≤ r.val from hr), pow_two]
  · rw [if_neg hr, if_neg (show ¬ i.val ≤ r.val from hr), mul_zero]

/-- If the sum of the squares is zero, then so is every entry. -/
theorem eq_zero_of_tailSq {c : Vec ℝ m} {k : Nat} (h : tailSq c k = 0) {r : Fin m}
    (hr : k ≤ r.val) : c r = 0 := by
  have hall := (Finset.sum_eq_zero_iff_of_nonneg fun r _ => by
    split
    · exact sq_nonneg (c r)
    · exact le_rfl).1 h r (Finset.mem_univ r)
  rw [if_pos hr] at hall
  exact pow_eq_zero_iff two_ne_zero |>.1 hall

variable {c : Vec ℝ m} {i : Fin m} {scale : ℝ}

/-- The vector made from a column is the column divided by `scale`, with one added in row `i`. -/
theorem tail_reflector :
    tail (reflector c i scale) i = scale⁻¹ • tail c i + Pi.single i 1 := by
  funext r
  rw [Pi.add_apply, Pi.smul_apply, smul_eq_mul, ← div_eq_inv_mul, Pi.single_apply]
  simp only [tail, reflector, Vec.of_apply]
  by_cases hr : r = i
  · rw [if_pos hr, if_pos hr, hr, if_pos le_rfl, if_pos le_rfl]
  · rw [if_neg hr, if_neg hr, add_zero]
    by_cases hle : i ≤ r
    · rw [if_pos hle, if_pos hle, if_pos (lt_of_le_of_ne hle (Ne.symm hr))]
    · rw [if_neg hle, if_neg hle, zero_div]

/-- The pivot entry of a reflection's vector. -/
theorem reflector_self : reflector c i scale i = c i / scale + 1 := by
  rw [reflector, Vec.of_apply, if_pos rfl]

/-- A number whose square is that of the norm of a column from row `i` on, with the sign of its
entry there, makes a reflector. -/
theorem isReflector_reflector (hne : scale ≠ 0) (hsq : scale ^ 2 = tailSq c i)
    (hsign : 0 ≤ c i / scale) : IsReflector (reflector c i scale) i := by
  have hself : tail c i i = c i := if_pos le_rfl
  have hdot : scale⁻¹ * (scale⁻¹ * tailSq c i) = 1 := by
    rw [← hsq]
    field_simp
  refine ⟨by rw [reflector_self]; positivity, ?_⟩
  rw [tail_reflector, reflector_self, add_dotProduct, dotProduct_add, dotProduct_add,
    smul_dotProduct, dotProduct_smul, tail_dotProduct_tail, smul_dotProduct, dotProduct_smul,
    dotProduct_single_one, single_one_dotProduct, single_one_dotProduct, hself, Pi.single_eq_same]
  simp only [smul_eq_mul]
  rw [hdot, div_eq_inv_mul]
  ring

/-- A reflector turns the column it was made from into a multiple of a unit vector, from row `i`
on. -/
theorem reflect_reflector (hne : scale ≠ 0) (hsq : scale ^ 2 = tailSq c i)
    (hsign : 0 ≤ c i / scale) (r : Fin m) :
    reflect (reflector c i scale) i c r =
      if r < i then c r else if r = i then -scale else 0 := by
  have hpivot : c i / scale + 1 ≠ 0 := by positivity
  have hdot : tail c i ⬝ᵥ c.get = scale ^ 2 := by
    rw [hsq, ← tail_dotProduct_tail, dotProduct, dotProduct]
    refine Finset.sum_congr rfl ?_
    intro r _
    rw [tail]
    split
    · rfl
    · rw [zero_mul, zero_mul]
  -- the multiple of the reflector that is taken off
  have hshare : (tail (reflector c i scale) i ⬝ᵥ c.get) / reflector c i scale i = scale := by
    rw [tail_reflector, reflector_self, add_dotProduct, smul_dotProduct, hdot,
      single_one_dotProduct, smul_eq_mul, div_eq_iff hpivot]
    change scale⁻¹ * scale ^ 2 + c i = scale * (c i / scale + 1)
    field_simp
    ring
  rw [reflect, sumWhere_eq_tail_dotProduct, Vec.of_apply, hshare]
  rcases lt_trichotomy r i with hlt | heq | hgt
  · rw [if_pos hlt, if_neg (not_le.2 hlt)]
  · rw [if_neg heq.not_lt, if_pos heq, if_pos heq.ge, heq, reflector_self]
    field_simp
    ring
  · rw [if_neg hgt.not_gt, if_neg hgt.ne', if_pos hgt.le, reflector, Vec.of_apply,
      if_neg hgt.ne', if_pos hgt]
    field_simp
    ring

/-! ### Eliminating a column -/

/-- What the first `k` reflections have left of the matrix: `R` in the first `k` columns, and the
columns still to come as they are. -/
def reduced (e : Elimination ℝ m n) (k : Nat) : Matrix (Fin m) (Fin n) ℝ :=
  Matrix.of fun r l =>
    if l.val < k then if r.val < l.val then e.a r l else if r.val = l.val then e.rdiag l else 0
    else e.a r l

/-- The columns that are done hold the triangular factor. -/
theorem reduced_of_lt (e : Elimination ℝ m n) {k : Nat} (r : Fin m) {l : Fin n} (h : l.val < k) :
    reduced e k r l =
      if r.val < l.val then e.a r l else if r.val = l.val then e.rdiag l else 0 := by
  rw [reduced, Matrix.of_apply, if_pos h]

/-- The columns still to come are as they are. -/
theorem reduced_of_le (e : Elimination ℝ m n) {k : Nat} (r : Fin m) {l : Fin n} (h : k ≤ l.val) :
    reduced e k r l = e.a r l := by
  rw [reduced, Matrix.of_apply, if_neg (Nat.not_lt.2 h)]

/-- The norm of a column from row `i` on, with the sign of its entry there. -/
noncomputable def signedNorm (nm : Numerics ℝ) (c : Vec ℝ m) (i : Fin m) : ℝ :=
  if c i < 0 then -nm.tailNorm c i else nm.tailNorm c i

variable {ε τ : ℝ} {z : Bool}

/-- The norm of the tail of a column is the root of its sum of squares. -/
theorem tailNorm_eq (c : Vec ℝ m) (k : Nat) :
    (Numerics.exact ε τ z).tailNorm c k = √(tailSq c k) :=
  Numerics.tailNorm_exact ε τ z c k

/-- The sign of a norm does not change its square. -/
theorem signedNorm_sq (c : Vec ℝ m) (i : Fin m) :
    signedNorm (Numerics.exact ε τ z) c i ^ 2 = tailSq c i := by
  rw [signedNorm, tailNorm_eq]
  split
  · rw [neg_sq, Real.sq_sqrt (tailSq_nonneg c i)]
  · rw [Real.sq_sqrt (tailSq_nonneg c i)]

/-- The norm has the sign of the pivot entry, so nothing cancels in the reflection's vector. -/
theorem div_signedNorm_nonneg (c : Vec ℝ m) (i : Fin m) :
    0 ≤ c i / signedNorm (Numerics.exact ε τ z) c i := by
  rw [signedNorm, tailNorm_eq]
  have hsqrt := Real.sqrt_nonneg (tailSq c i)
  split
  · next hneg => exact div_nonneg_of_nonpos hneg.le (neg_nonpos.2 hsqrt)
  · next hpos => exact div_nonneg (not_lt.1 hpos) hsqrt

/-- A tail that is not zero has a norm that is not zero. -/
theorem signedNorm_ne_zero {c : Vec ℝ m} {i : Fin m} (hne : tailSq c i ≠ 0) :
    signedNorm (Numerics.exact ε τ z) c i ≠ 0 := by
  intro hzero
  have hsq := signedNorm_sq (ε := ε) (τ := τ) (z := z) c i
  rw [hzero, zero_pow two_ne_zero] at hsq
  exact hne hsq.symm

/-- A column of which something is left makes a reflector. -/
theorem isReflector_signedNorm {c : Vec ℝ m} {i : Fin m} (hne : tailSq c i ≠ 0) :
    IsReflector (reflector c i (signedNorm (Numerics.exact ε τ z) c i)) i :=
  isReflector_reflector (signedNorm_ne_zero hne) (signedNorm_sq c i) (div_signedNorm_nonneg c i)

section Reduce

variable (ε τ z) (pivot : Bool) (e : Elimination ℝ m n) {i : Fin m} {j : Fin n}

/-- The test for a zero column is exact. -/
theorem tailNorm_beq_zero (c : Vec ℝ m) (k : Nat) :
    ((Numerics.exact ε τ z).tailNorm c k == 0) = true ↔ tailSq c k = 0 := by
  rw [Exact.beq_iff, tailNorm_eq, Real.sqrt_eq_zero (tailSq_nonneg c k)]

/-- If there is nothing to eliminate, only the diagonal entry is noted. -/
theorem reduce_of_eq_zero (hzero : tailSq (e.a.col j) i = 0) :
    e.reduce (Numerics.exact ε τ z) pivot i j = { e with rdiag := e.rdiag.set j 0 } := by
  have hnorm := (tailNorm_beq_zero ε τ z (e.a.col j) i).2 hzero
  have hvalue := (Exact.beq_iff _ _).1 hnorm
  simp only [reduce, if_pos hnorm]
  rw [hvalue, neg_zero]

/-- The columns after an elimination: the reflector, the columns before it as they were and the
columns after it reflected. -/
theorem reduce_a_of_ne (hne : tailSq (e.a.col j) i ≠ 0) (r : Fin m) (l : Fin n) :
    (e.reduce (Numerics.exact ε τ z) pivot i j).a r l =
      if l = j then
        reflector (e.a.col j) i (signedNorm (Numerics.exact ε τ z) (e.a.col j) i) r
      else if j < l then
        reflect (reflector (e.a.col j) i (signedNorm (Numerics.exact ε τ z) (e.a.col j) i)) i
          (e.a.col l) r
      else e.a r l := by
  have hnorm := mt (tailNorm_beq_zero ε τ z (e.a.col j) i).1 hne
  simp only [reduce, if_neg hnorm, Mat.ofCols_apply]
  split
  · rfl
  · split <;> rfl

/-- One step of the elimination sets the diagonal entry of its column and downdates the norms of
those after it. -/
theorem reduce_rdiag_of_ne (hne : tailSq (e.a.col j) i ≠ 0) (l : Fin n) :
    (e.reduce (Numerics.exact ε τ z) pivot i j).rdiag l =
      if l = j then -signedNorm (Numerics.exact ε τ z) (e.a.col j) i
      else if j < l ∧ pivot then
        (downdate (Numerics.exact ε τ z)
          ((e.reduce (Numerics.exact ε τ z) pivot i j).a.col l) i (e.rdiag l) (e.reference l)).1
      else e.rdiag l := by
  have hnorm := mt (tailNorm_beq_zero ε τ z (e.a.col j) i).1 hne
  simp only [reduce, if_neg hnorm, Vec.set_apply, Vec.map_apply, Vec.of_apply]
  split
  · rfl
  · split <;> rfl

/-- Columns before `j` are left alone. -/
theorem reduce_a_of_lt (r : Fin m) {l : Fin n} (hl : l < j) :
    (e.reduce (Numerics.exact ε τ z) pivot i j).a r l = e.a r l := by
  by_cases hzero : tailSq (e.a.col j) i = 0
  · rw [reduce_of_eq_zero ε τ z pivot e hzero]
  · rw [reduce_a_of_ne ε τ z pivot e hzero, if_neg hl.ne, if_neg hl.not_gt]

/-- Diagonal entries before `j` are left alone. -/
theorem reduce_rdiag_of_lt {l : Fin n} (hl : l < j) :
    (e.reduce (Numerics.exact ε τ z) pivot i j).rdiag l = e.rdiag l := by
  by_cases hzero : tailSq (e.a.col j) i = 0
  · rw [reduce_of_eq_zero ε τ z pivot e hzero, Vec.set_apply, if_neg hl.ne]
  · have hnot : ¬ (j < l ∧ pivot = true) := fun h => hl.not_gt h.1
    rw [reduce_rdiag_of_ne ε τ z pivot e hzero, if_neg hl.ne, if_neg hnot]

variable {pivot e}

variable (pivot) in
/-- A column without anything to eliminate keeps no reflection, and another one keeps a
reflector. -/
theorem reduce_reflectors (hij : i.val = j.val) (h : Reflectors e.a j) :
    Reflectors (e.reduce (Numerics.exact ε τ z) pivot i j).a (j + 1) := by
  intro r l hrl hl
  obtain hlt | heq := Nat.lt_succ_iff_lt_or_eq.1 hl
  · -- an earlier column still keeps what it kept
    have hcol : (e.reduce (Numerics.exact ε τ z) pivot i j).a.col l = e.a.col l :=
      Vec.ext fun r => reduce_a_of_lt ε τ z pivot e r hlt
    rw [hcol, reduce_a_of_lt ε τ z pivot e r hlt]
    exact h r l hrl hlt
  · obtain rfl : l = j := Fin.ext heq
    obtain rfl : r = i := Fin.ext (hrl.trans hij.symm)
    by_cases hzero : tailSq (e.a.col l) r = 0
    · left
      rw [reduce_of_eq_zero ε τ z pivot e hzero]
      exact eq_zero_of_tailSq hzero le_rfl
    · right
      have hcol : (e.reduce (Numerics.exact ε τ z) pivot r l).a.col l =
          reflector (e.a.col l) r (signedNorm (Numerics.exact ε τ z) (e.a.col l) r) :=
        Vec.ext fun s => by rw [Mat.col_apply, reduce_a_of_ne ε τ z pivot e hzero, if_pos rfl]
      rw [hcol]
      exact isReflector_signedNorm hzero

/-- If there is nothing to eliminate, the column only moves to those that are finished. -/
theorem reduced_reduce_of_eq_zero (hij : i.val = j.val) (hzero : tailSq (e.a.col j) i = 0) :
    reduced (e.reduce (Numerics.exact ε τ z) pivot i j) (j + 1) = reduced e j := by
  rw [reduce_of_eq_zero ε τ z pivot e hzero]
  ext r l
  rcases lt_trichotomy l j with hlt | rfl | hgt
  · rw [reduced_of_lt _ r (Nat.lt_succ_of_lt hlt), reduced_of_lt _ r hlt, Vec.set_apply,
      if_neg hlt.ne]
  · rw [reduced_of_lt _ r (Nat.lt_succ_self _), reduced_of_le _ r le_rfl, Vec.set_apply,
      if_pos rfl]
    by_cases hr : r.val < l.val
    · rw [if_pos hr]
    · rw [if_neg hr, ite_self]
      exact (eq_zero_of_tailSq (c := e.a.col l) hzero (by omega)).symm
  · rw [reduced_of_le _ r hgt, reduced_of_le _ r (show j.val ≤ l.val from hgt.le)]

/-- If there is something to eliminate, the column becomes a reflector, and the matrix is multiplied
with its reflection. -/
theorem reduced_reduce_of_ne (hij : i.val = j.val) (hne : tailSq (e.a.col j) i ≠ 0) :
    reduced (e.reduce (Numerics.exact ε τ z) pivot i j) (j + 1) =
      reflection (reflector (e.a.col j) i (signedNorm (Numerics.exact ε τ z) (e.a.col j) i)) i *
        reduced e j := by
  set scale := signedNorm (Numerics.exact ε τ z) (e.a.col j) i with hscale
  set w := reflector (e.a.col j) i scale with hw
  have hsq : scale ^ 2 = tailSq (e.a.col j) i := signedNorm_sq _ _
  have hsign : 0 ≤ e.a.col j i / scale := div_signedNorm_nonneg _ _
  have hscale_ne : scale ≠ 0 := signedNorm_ne_zero hne
  have hentry : ∀ r l, (e.reduce (Numerics.exact ε τ z) pivot i j).a r l =
      if l = j then w r else if j < l then reflect w i (e.a.col l) r else e.a r l :=
    reduce_a_of_ne ε τ z pivot e hne
  -- the columns are compared one by one, as vectors that the reflection is applied to
  ext r l
  change _ = (reflection w i *ᵥ fun s => reduced e j s l) r
  rcases lt_trichotomy l j with hlt | rfl | hgt
  · -- a finished column is zero where the reflection acts
    have hlj : l.val < j.val := hlt
    have htail : ∀ s, i ≤ s → reduced e j s l = 0 := by
      intro s hs
      have hsi : i.val ≤ s.val := hs
      rw [reduced_of_lt e s hlj, if_neg (by omega), if_neg (by omega)]
    rw [reflection_mulVec_of_tail w htail]
    change _ = reduced e j r l
    rw [reduced_of_lt e r hlj, reduced_of_lt _ r (Nat.lt_succ_of_lt hlj),
      reduce_a_of_lt ε τ z pivot e r hlt, reduce_rdiag_of_lt ε τ z pivot e hlt]
  · -- the column itself becomes a multiple of the unit vector in row `i`
    have hv : (fun s => reduced e l s l) = (e.a.col l).get := by
      funext s
      rw [reduced_of_le e s le_rfl]
      rfl
    rw [hv, ← reflect_eq_mulVec, reflect_reflector hscale_ne hsq hsign,
      reduced_of_lt _ r (Nat.lt_succ_self _), hentry, if_pos rfl,
      reduce_rdiag_of_ne ε τ z pivot e hne, if_pos rfl, ← hij]
    by_cases hr : r < i
    · rw [if_pos hr, if_pos (show r.val < i.val from hr), hw, reflector, Vec.of_apply,
        if_neg hr.ne, if_neg hr.not_gt]
    · rw [if_neg hr, if_neg (show ¬ r.val < i.val from hr)]
      simp only [Fin.ext_iff]
      rfl
  · -- a column still to come is reflected in place
    have hv : (fun s => reduced e j s l) = (e.a.col l).get := by
      funext s
      rw [reduced_of_le e s (show j.val ≤ l.val from hgt.le)]
      rfl
    rw [hv, ← reflect_eq_mulVec, reduced_of_le _ r hgt, hentry, if_neg hgt.ne', if_pos hgt]

/-- Eliminating a column multiplies the matrix with the reflection that it then keeps. -/
theorem reduced_reduce (hij : i.val = j.val) :
    reduced (e.reduce (Numerics.exact ε τ z) pivot i j) (j + 1) =
      stored (e.reduce (Numerics.exact ε τ z) pivot i j).a j * reduced e j := by
  rw [stored_of_val_eq _ hij]
  by_cases hzero : tailSq (e.a.col j) i = 0
  · have hpivot : (e.reduce (Numerics.exact ε τ z) pivot i j).a i j = 0 := by
      rw [reduce_of_eq_zero ε τ z pivot e hzero]
      exact eq_zero_of_tailSq hzero le_rfl
    rw [if_pos hpivot, Matrix.one_mul]
    exact reduced_reduce_of_eq_zero ε τ z hij hzero
  · have hcol : (e.reduce (Numerics.exact ε τ z) pivot i j).a.col j =
        reflector (e.a.col j) i (signedNorm (Numerics.exact ε τ z) (e.a.col j) i) :=
      Vec.ext fun r => by rw [Mat.col_apply, reduce_a_of_ne ε τ z pivot e hzero, if_pos rfl]
    -- the column keeps a reflector, whose pivot tells that there was something to eliminate
    have hpivot : (e.reduce (Numerics.exact ε τ z) pivot i j).a i j ≠ 0 := by
      rw [reduce_a_of_ne ε τ z pivot e hzero, if_pos rfl]
      exact (isReflector_signedNorm hzero).pivot_ne
    rw [if_neg hpivot, hcol]
    exact reduced_reduce_of_ne ε τ z hij hzero

end Reduce

section Frame

variable {α : Type} [Scalar α] (nm : Numerics α) (pivot : Bool) (e : Elimination α m n)

/-- One step of the elimination does not reorder columns. -/
theorem reduce_order (i : Fin m) (j : Fin n) : (e.reduce nm pivot i j).order = e.order := by
  rw [reduce]
  simp only
  split <;> rfl

/-- One step of the elimination leaves the norms of the original columns alone. -/
theorem reduce_colNorm (i : Fin m) (j : Fin n) : (e.reduce nm pivot i j).colNorm = e.colNorm := by
  rw [reduce]
  simp only
  split <;> rfl

end Frame

/-! ### Exchanging columns -/

/-- The pivot is one of the columns still to come. -/
theorem le_pivotColumn (e : Elimination ℝ m n) (j : Fin n) : j ≤ e.pivotColumn j := by
  rw [pivotColumn]
  refine foldl_invariant (motive := fun _ (best : Fin n) => j ≤ best) le_rfl ?_
  intro k best hbest
  by_cases hk : j ≤ k ∧ e.rdiag best < e.rdiag k
  · rw [if_pos hk]
    exact hk.1
  · rw [if_neg hk]
    exact hbest

/-- Swapping two entries of a vector is composing it with a transposition. -/
theorem swap_eq {α : Type} (v : Vec α n) (i j k : Fin n) :
    v.swap i j k = v (Equiv.swap i j k) := by
  rw [Vec.swap_apply, Equiv.swap_apply_def]
  by_cases hj : k = j
  · rw [if_pos hj]
    by_cases hi : k = i
    · rw [if_pos hi, ← hj, hi]
    · rw [if_neg hi, if_pos hj]
  · rw [if_neg hj, if_neg hj]
    split <;> rfl

/-- Exchanging two columns is composing with a transposition. -/
theorem exchange_a (e : Elimination ℝ m n) (j l : Fin n) (r : Fin m) (c : Fin n) :
    (e.exchange j l).a r c = e.a r (Equiv.swap j l c) :=
  congrArg (fun v => Vec.get v r) (swap_eq e.a.cols j l c)

/-- An exchange of columns exchanges their positions in the order. -/
theorem exchange_order {α : Type} (e : Elimination α m n) (j l : Fin n) :
    (e.exchange j l).order.get = e.order.get ∘ Equiv.swap j l :=
  funext fun c => swap_eq e.order j l c

/-- An exchange of columns still to come leaves the others alone. -/
theorem exchange_a_of_lt (e : Elimination ℝ m n) {j l c : Fin n} {k : Nat} (hj : k ≤ j.val)
    (hl : k ≤ l.val) (r : Fin m) (hc : c.val < k) : (e.exchange j l).a r c = e.a r c := by
  have hcj : c ≠ j := fun h => absurd (congrArg Fin.val h) (by omega)
  have hcl : c ≠ l := fun h => absurd (congrArg Fin.val h) (by omega)
  rw [exchange_a, Equiv.swap_apply_of_ne_of_ne hcj hcl]

/-- An exchange of columns still to come exchanges the columns of the matrix that is left. -/
theorem reduced_exchange (e : Elimination ℝ m n) {j l : Fin n} {k : Nat} (hj : k ≤ j.val)
    (hl : k ≤ l.val) :
    reduced (e.exchange j l) k = (reduced e k).submatrix id (Equiv.swap j l) := by
  ext r c
  rw [submatrix_apply, id]
  by_cases hc : c.val < k
  · have hcj : c ≠ j := fun h => absurd (congrArg Fin.val h) (by omega)
    have hcl : c ≠ l := fun h => absurd (congrArg Fin.val h) (by omega)
    have hdiag : (e.exchange j l).rdiag c = e.rdiag c := by
      change e.rdiag.swap j l c = e.rdiag c
      rw [swap_eq, Equiv.swap_apply_of_ne_of_ne hcj hcl]
    rw [Equiv.swap_apply_of_ne_of_ne hcj hcl, reduced_of_lt _ r hc, reduced_of_lt _ r hc, hdiag,
      exchange_a_of_lt e hj hl r hc]
  · have hswap : k ≤ (Equiv.swap j l c).val := by
      rw [Equiv.swap_apply_def]
      split
      · exact hl
      · split
        · exact hj
        · exact Nat.not_lt.1 hc
    rw [reduced_of_le _ r (Nat.not_lt.1 hc), reduced_of_le _ r hswap, exchange_a]

/-! ### The invariant -/

/-- After `k` steps the columns of `a` in their new order are the product of the reflections with
what these have left. -/
structure Factors (a : Mat ℝ m n) (e : Elimination ℝ m n) (k : Nat) : Prop where
  bijective : Function.Bijective e.order.get
  reflectors : Reflectors e.a k
  eq : a.toMatrix.submatrix id e.order.get = product e.a k * reduced e k

section Invariant

variable {a : Mat ℝ m n} {e : Elimination ℝ m n}

/-- Before the first step the matrix is its own remainder. -/
theorem factors_start (nm : Numerics ℝ) (a : Mat ℝ m n) : Factors a (start nm a) 0 := by
  -- no reflection yet, and nothing of the matrix is finished
  refine ⟨?_, fun i j _ hj => absurd hj (Nat.not_lt_zero _), ?_⟩
  · change Function.Bijective (Vec.identity n).get
    rw [Vec.get_identity]
    exact Function.bijective_id
  · change a.toMatrix.submatrix id (Vec.identity n).get = 1 * _
    rw [Vec.get_identity, submatrix_id_id, Matrix.one_mul]
    ext r l
    rw [reduced_of_le _ r (Nat.zero_le _)]
    rfl

/-- Exchanging columns still to come keeps the invariant. -/
theorem Factors.exchange {k : Nat} (h : Factors a e k) {j l : Fin n} (hj : k ≤ j.val)
    (hl : k ≤ l.val) : Factors a (e.exchange j l) k := by
  have hproduct : product (e.exchange j l).a k = product e.a k :=
    product_congr fun r c hc _ => exchange_a_of_lt e hj hl r hc
  refine ⟨?_, ?_, ?_⟩
  · rw [exchange_order]
    exact h.bijective.comp (Equiv.swap j l).bijective
  · intro i c hic hc
    have hcol : (e.exchange j l).a.col c = e.a.col c :=
      Vec.ext fun r => exchange_a_of_lt e hj hl r hc
    rw [hcol, exchange_a_of_lt e hj hl i hc]
    exact h.reflectors i c hic hc
  · rw [exchange_order, hproduct, reduced_exchange e hj hl]
    have heq := congrArg (fun M => M.submatrix id (Equiv.swap j l)) h.eq
    simp only [submatrix_submatrix] at heq
    exact heq

variable (ε τ z) {pivot : Bool}

/-- Eliminating a column keeps the invariant. -/
theorem Factors.reduce {i : Fin m} {j : Fin n} (hij : i.val = j.val) (h : Factors a e j) :
    Factors a (e.reduce (Numerics.exact ε τ z) pivot i j) (j + 1) := by
  have hrefl := reduce_reflectors ε τ z pivot hij h.reflectors
  have horder := reduce_order (Numerics.exact ε τ z) pivot e i j
  have hproduct : product (e.reduce (Numerics.exact ε τ z) pivot i j).a j = product e.a j :=
    product_congr fun r l hl _ => reduce_a_of_lt ε τ z pivot e r hl
  refine ⟨?_, hrefl, ?_⟩
  · rw [horder]
    exact h.bijective
  · -- the new reflection is its own inverse, so it cancels between the two factors
    rw [horder, h.eq, product, hproduct, reduced_reduce ε τ z hij, Matrix.mul_assoc,
      ← Matrix.mul_assoc (stored _ _), stored_mul_self hrefl (Nat.lt_succ_self _),
      Matrix.one_mul]

/-- The invariant holds after any number of steps. -/
theorem factors_after (pivot : Bool) (a : Mat ℝ m n) {k : Nat} (hm : k ≤ m) (hn : k ≤ n) :
    Factors a (after (Numerics.exact ε τ z) pivot a k) k := by
  induction k with
  | zero => exact factors_start _ a
  | succ k ih =>
    have hk := ih (Nat.le_of_succ_le hm) (Nat.le_of_succ_le hn)
    rw [after, dif_pos ⟨hm, hn⟩, step]
    cases pivot with
    | true =>
      -- the pivot is exchanged with column `k` before it is eliminated
      have hle := le_pivotColumn (after (Numerics.exact ε τ z) true a k) ⟨k, hn⟩
      rw [if_pos rfl]
      exact (hk.exchange (j := ⟨k, hn⟩) le_rfl hle).reduce ε τ z rfl
    | false =>
      rw [if_neg Bool.false_ne_true]
      exact hk.reduce ε τ z (i := ⟨k, hm⟩) (j := ⟨k, hn⟩) rfl

end Invariant

end Elimination

/-! ### The result -/

namespace QR

/-- The triangular factor. -/
def triangle (qr : QR ℝ m n) : Matrix (Fin m) (Fin n) ℝ :=
  Matrix.of fun r l => if r.val < l.val then qr.a r l else if r.val = l.val then qr.rdiag l else 0

/-- After all steps only the triangular factor is left. A column past the last row lies above the
diagonal as a whole. -/
theorem reduced_eq_triangle (e : Elimination ℝ m n) :
    Elimination.reduced e (min m n) = e.toQR.triangle := by
  ext r l
  by_cases hl : l.val < m
  · rw [Elimination.reduced_of_lt e r (lt_min hl l.isLt)]
    rfl
  · have hml : m ≤ l.val := Nat.not_lt.1 hl
    have hrl : r.val < l.val := r.isLt.trans_le hml
    rw [Elimination.reduced_of_le e r (min_le_of_left_le hml), triangle, Matrix.of_apply,
      if_pos hrl]

/-- The matrix `a` is factored: its columns in the new order are the product of an orthogonal matrix
with the triangular factor. -/
structure Factors (a : Mat ℝ m n) (qr : QR ℝ m n) : Prop where
  bijective : Function.Bijective qr.order.get
  orthogonal : (product qr.a n)ᵀ * product qr.a n = 1
  eq : a.toMatrix.submatrix id qr.order.get = product qr.a n * qr.triangle

variable (ε τ : ℝ) (z : Bool)

/-- Every matrix is factored, with and without pivoting. -/
theorem factor_factors (pivot : Bool) (a : Mat ℝ m n) :
    Factors a (factor (Numerics.exact ε τ z) pivot a) := by
  have hafter := Elimination.factors_after ε τ z pivot a (min_le_left m n) (min_le_right m n)
  have hrefl := hafter.reflectors.of_min
  have heq := hafter.eq
  rw [product_min, reduced_eq_triangle] at heq
  exact ⟨hafter.bijective, product_transpose_mul hrefl, heq⟩

/-- Without pivoting the order of the columns is kept. -/
theorem factor_order (nm : Numerics ℝ) (a : Mat ℝ m n) :
    (factor nm false a).order = Vec.identity n := by
  have hafter : ∀ k, (Elimination.after nm false a k).order = Vec.identity n := by
    intro k
    induction k with
    | zero => rfl
    | succ k ih =>
      rw [Elimination.after]
      split
      · rw [Elimination.step, if_neg Bool.false_ne_true, Elimination.reduce_order, ih]
      · exact ih
  exact hafter _

/-- The norms of the columns are those of the given matrix. -/
theorem factor_colNorm {α : Type} [Scalar α] (nm : Numerics α) (pivot : Bool) (a : Mat α m n) :
    (factor nm pivot a).colNorm = Vec.of fun j => nm.vecNorm (a.col j) := by
  have hafter : ∀ k, (Elimination.after nm pivot a k).colNorm =
      Vec.of fun j => nm.vecNorm (a.col j) := by
    intro k
    induction k with
    | zero => rfl
    | succ k ih =>
      rw [Elimination.after]
      split
      · rw [Elimination.step]
        split
        · rw [Elimination.reduce_colNorm]
          exact ih
        · rw [Elimination.reduce_colNorm, ih]
      · exact ih
  exact hafter _

/-- In exact arithmetic every matrix is the product of its factors, whatever its shape and its rank
are: the matrix that is formed from the reflections is orthogonal, and times the triangular factor
it has the columns of the given matrix in their new order, which without pivoting is the old one.
What is applied to a vector is the transpose of that same matrix. -/
theorem factor_reconstructs (pivot : Bool) (a : Mat ℝ m n) :
    let qr := factor (Numerics.exact ε τ z) pivot a
    let q := (orthogonalFactor qr.a).toMatrix
    (qᵀ * q = 1 ∧ q * qᵀ = 1) ∧
      (Function.Bijective qr.order.get ∧
        (factor (Numerics.exact ε τ z) false a).order = Vec.identity n) ∧
      a.toMatrix.submatrix id qr.order.get = q * qr.triangle ∧
      ∀ b : Vec ℝ m, (applyTranspose qr.a b).get = qᵀ *ᵥ b.get := by
  intro qr q
  have hfactors : Factors a qr := factor_factors ε τ z pivot a
  have hq : q = product qr.a n := toMatrix_orthogonalFactor qr.a
  have horth : qᵀ * q = 1 := by
    rw [hq]
    exact hfactors.orthogonal
  refine ⟨⟨horth, mul_eq_one_comm.1 horth⟩, ⟨hfactors.bijective, factor_order _ a⟩, ?_, ?_⟩
  · rw [hq]
    exact hfactors.eq
  · intro b
    rw [hq]
    exact applyTranspose_eq_mulVec qr.a b

end QR

end NonlinearSolve

import Mathlib.Algebra.BigOperators.Fin
import Mathlib.Analysis.SpecialFunctions.Log.Basic
import Mathlib.Analysis.SpecialFunctions.Sqrt
import NonlinearSolve.Numerics

/-! # Exact arithmetic

The real numbers as a number type: every operation is exact, and `Numerics.exact` is the arithmetic
with the plain Euclidean norm, in which every number but zero has a reciprocal. The small lemmas of
this file say what the operations of the library are there, so that no later proof has to look into
a loop for a sum or a maximum. Loops with a state are left to `foldl_invariant` and
`foldr_invariant`. -/

namespace NonlinearSolve

/-- The real numbers. Quantities that were never computed are zero. -/
noncomputable instance : Scalar ℝ where
  mag x := |x|
  sqrt := Real.sqrt
  log := Real.log
  nan := 0
  beq x y := open Classical in decide (x = y)
  decLT := inferInstance
  decLE := inferInstance

/-! ### Loops -/

section Loops

variable {β : Type*} {n : Nat}

/-- What holds before a loop and is kept by every pass, holds after it. -/
theorem foldl_invariant {motive : Nat → β → Prop} {f : β → Fin n → β} {b : β}
    (start : motive 0 b)
    (step : ∀ (j : Fin n) (b : β), motive j b → motive (j + 1) (f b j)) :
    motive n (Fin.foldl n f b) := by
  induction n with
  | zero => exact start
  | succ n ih =>
    rw [Fin.foldl_succ_last]
    exact step (Fin.last n) _ (ih fun j b => step j.castSucc b)

/-- What holds before a loop from the last index to the first and is kept by every pass, holds
after it. -/
theorem foldr_invariant {motive : Nat → β → Prop} {f : Fin n → β → β} {b : β}
    (start : motive n b)
    (step : ∀ (j : Fin n) (b : β), motive (j + 1) b → motive j (f j b)) :
    motive 0 (Fin.foldr n f b) := by
  induction n generalizing b with
  | zero => exact start
  | succ n ih =>
    rw [Fin.foldr_succ_last]
    exact ih (step (Fin.last n) b start) fun j b => step j.castSucc b

end Loops

/-! ### Operations -/

namespace Exact

open Scalar

/-- Real numbers are compared exactly. -/
theorem beq_iff (x y : ℝ) : (x == y) = true ↔ x = y := decide_eq_true_iff

/-- Real numbers are told apart exactly. -/
theorem beq_eq_false_iff (x y : ℝ) : (x == y) = false ↔ x ≠ y := decide_eq_false_iff_not

/-- The magnitude of a real number is its absolute value. -/
theorem mag_eq (x : ℝ) : mag x = |x| := rfl

/-- The square root is the real one. -/
theorem sqrt_eq (x : ℝ) : sqrt x = √x := rfl

/-- The larger of two numbers is their maximum. -/
theorem maxNum_eq (x y : ℝ) : maxNum x y = max x y := by
  rw [maxNum]
  by_cases hxy : x < y
  · rw [if_pos hxy, max_eq_right hxy.le]
  · rw [if_neg hxy, if_pos ((beq_iff x x).2 rfl), max_eq_left (not_lt.1 hxy)]

/-- The smaller of two numbers is their minimum. -/
theorem minNum_eq (x y : ℝ) : minNum x y = min x y := by
  rw [minNum]
  by_cases hxy : x < y
  · rw [if_pos hxy, min_eq_left hxy.le]
  · rw [if_neg hxy, if_pos ((beq_iff y y).2 rfl), min_eq_right (not_lt.1 hxy)]

variable {m n : Nat}

/-- A sum in index order is the sum over all indices. -/
theorem sum_eq (f : Fin n → ℝ) : Scalar.sum f = ∑ i, f i := by
  rw [Scalar.sum]
  induction n with
  | zero => rfl
  | succ n ih => rw [Fin.foldl_succ_last, ih, Fin.sum_univ_castSucc]

/-- A sum in index order over some indices is the sum with zeros for the others. -/
theorem sumWhere_eq (p : Fin n → Prop) [DecidablePred p] (f : Fin n → ℝ) :
    sumWhere p f = ∑ i, if p i then f i else 0 := by
  rw [sumWhere]
  induction n with
  | zero => rfl
  | succ n ih =>
    rw [Fin.foldl_succ_last, ih (fun i => p i.castSucc), Fin.sum_univ_castSucc]
    split
    · rfl
    · rw [add_zero]

/-- The same for a sum that starts from `x`. -/
theorem foldl_addWhere (p : Fin n → Prop) [DecidablePred p] (f : Fin n → ℝ) (x : ℝ) :
    Fin.foldl n (fun s i => if p i then s + f i else s) x = x + ∑ i, if p i then f i else 0 := by
  induction n with
  | zero => exact (add_zero x).symm
  | succ n ih =>
    rw [Fin.foldl_succ_last, ih (fun i => p i.castSucc), Fin.sum_univ_castSucc, ← add_assoc]
    split
    · rfl
    · rw [add_zero]

/-- A sum over some indices depends on the terms for these indices only. -/
theorem sum_ite_congr {p : Fin n → Prop} [DecidablePred p] {f g : Fin n → ℝ}
    (h : ∀ i, p i → f i = g i) :
    (∑ i, if p i then f i else 0) = ∑ i, if p i then g i else 0 := by
  refine Finset.sum_congr rfl ?_
  intro i _
  by_cases hi : p i
  · rw [if_pos hi, if_pos hi, h i hi]
  · rw [if_neg hi, if_neg hi]

/-- The sum over the indices up to `j`, the last one split off. -/
theorem sum_lt_succ (f : Fin n → ℝ) (j : Fin n) :
    (∑ i, if i.val < j.val + 1 then f i else 0) =
      (∑ i, if i.val < j.val then f i else 0) + f j := by
  have hsplit : ∀ i : Fin n, (if i.val < j.val + 1 then f i else 0) =
      (if i.val < j.val then f i else 0) + if i = j then f i else 0 := by
    intro i
    rcases lt_trichotomy i j with hlt | rfl | hgt
    · rw [if_pos (Nat.lt_succ_of_lt hlt), if_pos (show i.val < j.val from hlt), if_neg hlt.ne,
        add_zero]
    · rw [if_pos (Nat.lt_succ_self _), if_neg (lt_irrefl _), if_pos rfl, zero_add]
    · rw [if_neg (Nat.not_lt.2 hgt), if_neg (show ¬ i.val < j.val from hgt.not_gt),
        if_neg hgt.ne', add_zero]
  simp only [hsplit, Finset.sum_add_distrib, Finset.sum_ite_eq', Finset.mem_univ, if_true]

/-- The sum over the indices from `j` on, the first one split off. -/
theorem sum_ge (f : Fin n → ℝ) (j : Fin n) :
    (∑ i, if j.val ≤ i.val then f i else 0) = f j + ∑ i, if j.val + 1 ≤ i.val then f i else 0 := by
  have hsplit : ∀ i : Fin n, (if j.val ≤ i.val then f i else 0) =
      (if i = j then f i else 0) + if j.val + 1 ≤ i.val then f i else 0 := by
    intro i
    rcases lt_trichotomy i j with hlt | rfl | hgt
    · have hij : i.val < j.val := hlt
      rw [if_neg (by omega), if_neg hlt.ne, if_neg (by omega), add_zero]
    · rw [if_pos le_rfl, if_pos rfl, if_neg (by omega), add_zero]
    · have hji : j.val < i.val := hgt
      rw [if_pos hji.le, if_neg hgt.ne', if_pos (by omega), zero_add]
  simp only [hsplit, Finset.sum_add_distrib, Finset.sum_ite_eq', Finset.mem_univ, if_true]

/-! ### Norms -/

/-- The list of the entries of a vector. -/
theorem toList_eq_ofFn {α : Type} (v : Vec α n) : v.toList = List.ofFn v.get := by
  refine List.ext_getElem (by simp) ?_
  intro i h₁ h₂
  rw [List.getElem_ofFn]
  exact v.getElem_toList ⟨i, by simpa using h₁⟩ h₁

/-- The sum over the entries from index `k` on. -/
theorem sum_map_drop_ofFn (g : ℝ → ℝ) (f : Fin n → ℝ) (k : Nat) :
    (((List.ofFn f).drop k).map g).sum = ∑ i : Fin n, if k ≤ i then g (f i) else 0 := by
  induction n generalizing k with
  | zero => simp
  | succ n ih =>
    rw [Fin.sum_univ_succ]
    cases k with
    | zero => simp [List.sum_ofFn]
    | succ k =>
      rw [List.ofFn_succ, List.drop_succ_cons, ih]
      simp

/-- The sum over the entries before index `k`. -/
theorem sum_map_take_ofFn (g : ℝ → ℝ) (f : Fin n → ℝ) (k : Nat) :
    (((List.ofFn f).take k).map g).sum = ∑ i : Fin n, if i < k then g (f i) else 0 := by
  induction n generalizing k with
  | zero => simp
  | succ n ih =>
    rw [Fin.sum_univ_succ]
    cases k with
    | zero => simp
    | succ k =>
      rw [List.ofFn_succ, List.take_succ_cons, List.map_cons, List.sum_cons, ih]
      simp

end Exact

namespace Numerics

/-- Exact arithmetic with the plain Euclidean norm. -/
noncomputable def exact (epsilon tiny : ℝ) (stopAtZero : Bool) : Numerics ℝ where
  epsilon
  tiny
  norm l := √(l.map (· ^ 2)).sum
  invertible c := open Classical in decide (c ≠ 0)
  stopAtZero

variable {n : Nat} (ε τ : ℝ) (z : Bool)

/-- The norm of a vector is the root of the sum of the squares of its entries. -/
theorem vecNorm_exact (v : Vec ℝ n) : (exact ε τ z).vecNorm v = √(∑ i, v i ^ 2) := by
  have hsum := Exact.sum_map_drop_ofFn (· ^ 2) v.get 0
  simp only [List.drop_zero, Nat.zero_le, if_true] at hsum
  simp only [vecNorm, exact, Exact.toList_eq_ofFn, hsum]

/-- The norm of the entries from index `k` on. -/
theorem tailNorm_exact (v : Vec ℝ n) (k : Nat) :
    (exact ε τ z).tailNorm v k = √(∑ i : Fin n, if k ≤ i then v i ^ 2 else 0) := by
  simp only [tailNorm, exact, Exact.toList_eq_ofFn, Exact.sum_map_drop_ofFn (· ^ 2) v.get k]

/-- The norm of the entries before index `k`. -/
theorem norm_take_exact (v : Vec ℝ n) (k : Nat) :
    (exact ε τ z).norm (v.toList.take k) = √(∑ i : Fin n, if i < k then v i ^ 2 else 0) := by
  simp only [exact, Exact.toList_eq_ofFn, Exact.sum_map_take_ofFn (· ^ 2) v.get k]

/-- A norm is not negative. -/
theorem vecNorm_exact_nonneg (v : Vec ℝ n) : 0 ≤ (exact ε τ z).vecNorm v := by
  rw [vecNorm_exact]
  exact Real.sqrt_nonneg _

/-- In exact arithmetic the norm is the Euclidean one. -/
theorem vecNorm_exact_sq (v : Vec ℝ n) : (exact ε τ z).vecNorm v ^ 2 = ∑ i, v i ^ 2 := by
  rw [vecNorm_exact, Real.sq_sqrt (Finset.sum_nonneg fun i _ => sq_nonneg (v i))]

variable {ε τ z} in
/-- Only the zero vector has the norm zero. -/
theorem vecNorm_exact_eq_zero (v : Vec ℝ n) : (exact ε τ z).vecNorm v = 0 ↔ v = Vec.zero n := by
  rw [vecNorm_exact, Real.sqrt_eq_zero (Finset.sum_nonneg fun i _ => sq_nonneg (v i)),
    Finset.sum_eq_zero_iff_of_nonneg fun i _ => sq_nonneg (v i)]
  constructor
  · intro h
    ext i
    rw [Vec.zero_apply]
    exact pow_eq_zero_iff two_ne_zero |>.1 (h i (Finset.mem_univ i))
  · rintro rfl i -
    rw [Vec.zero_apply, zero_pow two_ne_zero]

/-- The zero vector has norm zero. -/
@[simp] theorem vecNorm_exact_zero (n : Nat) :
    (exact ε τ z).vecNorm (Vec.zero n : Vec ℝ n) = 0 := (vecNorm_exact_eq_zero _).2 rfl

variable {ε τ z} in
/-- The norm of a constant vector. -/
theorem vecNorm_const (a : ℝ) : (exact ε τ z).vecNorm (Vec.const n a) = |a| * √n := by
  rw [vecNorm_exact]
  simp only [Vec.const_apply]
  rw [Finset.sum_const, Finset.card_univ, Fintype.card_fin, nsmul_eq_mul,
    Real.sqrt_mul (Nat.cast_nonneg n), Real.sqrt_sq_eq_abs, mul_comm]

variable {ε τ z} in
/-- The scaled norm of a constant vector with a constant scaling. -/
theorem scaledNorm_const (a b : ℝ) :
    (exact ε τ z).scaledNorm (Vec.const n a) (Vec.const n b) = |a * b| * √n := by
  rw [scaledNorm, Vec.diagMul_const, vecNorm_const]

/-- A number has a reciprocal exactly if it is not zero. -/
theorem invertible_exact (c : ℝ) : (exact ε τ z).invertible c = true ↔ c ≠ 0 :=
  decide_eq_true_iff

end Numerics

end NonlinearSolve

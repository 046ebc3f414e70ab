import Mathlib.Analysis.SpecialFunctions.Sqrt
import Mathlib.Tactic.FieldSimp
import NonlinearSolve.Linear.Rotation
import NonlinearSolve.Proofs.Exact.Matrices

/-! # Plane rotations in exact arithmetic

`Rotation.annihilating a b` is a rotation that takes the second number to zero
(`apply_annihilating`), and it is recovered from its code (`decode_encode`). Acting on one column
and the last one, a rotation is an orthogonal matrix (`plane`). -/

namespace NonlinearSolve

open Matrix Scalar

namespace Rotation

/-- The cosine and the sine of one angle. -/
def IsUnit (g : Rotation ℝ) : Prop := g.cos ^ 2 + g.sin ^ 2 = 1

/-- The identity is a rotation of the plane. -/
theorem isUnit_identity : (identity : Rotation ℝ).IsUnit := by
  change (1 : ℝ) ^ 2 + 0 ^ 2 = 1
  norm_num

/-- The rotation in the opposite sense. -/
def inverse (g : Rotation ℝ) : Rotation ℝ := ⟨g.cos, -g.sin⟩

/-- The inverse of a rotation of the plane is one. -/
theorem IsUnit.inverse {g : Rotation ℝ} (h : g.IsUnit) : g.inverse.IsUnit := by
  change g.cos ^ 2 + (-g.sin) ^ 2 = 1
  rw [neg_sq]
  exact h

/-- The identity is its own inverse. -/
theorem inverse_identity : (identity : Rotation ℝ).inverse = identity := by
  rw [identity, inverse]
  simp only [neg_zero]

/-- Applying inversely is applying the inverse. -/
theorem applyInverse_eq (g : Rotation ℝ) (x y : ℝ) : g.applyInverse x y = g.inverse.apply x y := by
  simp only [applyInverse, apply, inverse, Prod.mk.injEq]
  constructor <;> ring

/-! ### The annihilating rotation -/

/-- The smaller one of sine and cosine from the quotient `t` of the two. -/
noncomputable def ofQuotient (t : ℝ) : ℝ := 0.5 / √(0.25 + 0.25 * t * t)

/-- The radicand of the shared form is positive. -/
theorem radicand_pos (t : ℝ) : (0 : ℝ) < 0.25 + 0.25 * t * t := by
  have hsq := mul_self_nonneg t
  nlinarith

/-- The larger of sine and cosine is positive. -/
theorem ofQuotient_pos (t : ℝ) : 0 < ofQuotient t := by
  rw [ofQuotient]
  exact div_pos (by norm_num) (Real.sqrt_pos.2 (radicand_pos t))

/-- The larger of sine and cosine has the square that makes a unit of both. -/
theorem ofQuotient_sq (t : ℝ) : ofQuotient t ^ 2 * (1 + t ^ 2) = 1 := by
  have hpos := radicand_pos t
  rw [ofQuotient, div_pow, Real.sq_sqrt hpos.le, div_mul_eq_mul_div, div_eq_one_iff_eq hpos.ne']
  ring

/-- With a larger second entry the quotient is that of the first by the second. -/
theorem annihilating_of_lt {a b : ℝ} (h : |a| < |b|) :
    annihilating a b = ⟨ofQuotient (a / b) * (a / b), ofQuotient (a / b)⟩ := if_pos h

/-- With a larger first entry the quotient is that of the second by the first. -/
theorem annihilating_of_le {a b : ℝ} (h : |b| ≤ |a|) :
    annihilating a b = ⟨ofQuotient (b / a), ofQuotient (b / a) * (b / a)⟩ := if_neg (not_lt.2 h)

/-- The rotation that annihilates an entry is one of the plane, also for two zeros. -/
theorem isUnit_annihilating (a b : ℝ) : (annihilating a b).IsUnit := by
  rcases lt_or_ge |a| |b| with h | h
  · have hsq := ofQuotient_sq (a / b)
    rw [annihilating_of_lt h, IsUnit]
    linear_combination hsq
  · have hsq := ofQuotient_sq (b / a)
    rw [annihilating_of_le h, IsUnit]
    linear_combination hsq

/-- The second number is taken to zero. -/
theorem apply_annihilating (a b : ℝ) : ((annihilating a b).apply a b).2 = 0 := by
  rcases lt_or_ge |a| |b| with h | h
  · have hb : b ≠ 0 := by
      rintro rfl
      rw [abs_zero] at h
      exact (abs_nonneg a).not_gt h
    rw [annihilating_of_lt h]
    change -ofQuotient (a / b) * a + ofQuotient (a / b) * (a / b) * b = 0
    field_simp
    ring
  · rw [annihilating_of_le h]
    change -(ofQuotient (b / a) * (b / a)) * a + ofQuotient (b / a) * b = 0
    by_cases ha : a = 0
    · -- then both numbers are zero, and so is the quotient
      have hb : b = 0 := by
        rw [ha, abs_zero] at h
        exact abs_nonpos_iff.1 h
      rw [ha, hb]
      ring
    · field_simp
      ring

/-! ### Codes -/

/-- A number larger than one encodes the reciprocal of a cosine. -/
theorem decode_of_lt {t : ℝ} (h : 1 < |t|) : decode t = ⟨1 / t, √(1 - 1 / t * (1 / t))⟩ :=
  if_pos h

/-- A number up to one encodes a sine. -/
theorem decode_of_le {t : ℝ} (h : |t| ≤ 1) : decode t = ⟨√(1 - t * t), t⟩ := if_neg (not_lt.2 h)

/-- If the sine is not negative, it follows from the cosine, and the other way round. -/
theorem sqrt_one_sub_sq {x y : ℝ} (h : x ^ 2 + y ^ 2 = 1) (hx : 0 ≤ x) : √(1 - y * y) = x := by
  rw [show 1 - y * y = x ^ 2 by linear_combination -h]
  exact Real.sqrt_sq hx

/-- Every number encodes a rotation of the plane. -/
theorem isUnit_decode (t : ℝ) : (decode t).IsUnit := by
  rcases lt_or_ge 1 |t| with h | h
  · have hle : 1 / t * (1 / t) ≤ 1 := by
      have hinv : |1 / t| ≤ 1 := by
        rw [abs_div, abs_one, div_le_one (zero_lt_one.trans h)]
        exact h.le
      have hsq := (sq_le_one_iff_abs_le_one (1 / t)).2 hinv
      rwa [pow_two] at hsq
    rw [decode_of_lt h, IsUnit, Real.sq_sqrt (sub_nonneg.2 hle)]
    ring
  · have hle : t * t ≤ 1 := by
      have hsq := (sq_le_one_iff_abs_le_one t).2 h
      rwa [pow_two] at hsq
    rw [decode_of_le h, IsUnit, Real.sq_sqrt (sub_nonneg.2 hle)]
    ring

/-- Zero encodes the identity. -/
theorem decode_zero : decode (0 : ℝ) = identity := by
  rw [decode_of_le (by rw [abs_zero]; exact zero_le_one), mul_zero, sub_zero, Real.sqrt_one]
  rfl

/-- A rotation with a positive sine is recovered from the reciprocal of its cosine. -/
theorem decode_one_div {c s : ℝ} (h : c ^ 2 + s ^ 2 = 1) (hc : c ≠ 0) (hs : 0 < s) :
    decode (1 / c) = ⟨c, s⟩ := by
  have hlt : |c| < 1 := by
    rw [← sq_lt_one_iff_abs_lt_one]
    have hpos := pow_pos hs 2
    linarith
  have habs : 1 < |1 / c| := by
    rw [abs_div, abs_one]
    exact one_lt_one_div (abs_pos.2 hc) hlt
  rw [decode_of_lt habs, one_div_one_div, sqrt_one_sub_sq (by rwa [add_comm]) hs.le]

/-- A rotation whose cosine is not negative is recovered from its sine. -/
theorem decode_sin {c s : ℝ} (h : c ^ 2 + s ^ 2 = 1) (hc : 0 ≤ c) : decode s = ⟨c, s⟩ := by
  have hle : |s| ≤ 1 := by
    rw [← sq_le_one_iff_abs_le_one]
    have hnonneg := sq_nonneg c
    linarith
  rw [decode_of_le hle, sqrt_one_sub_sq h hc]

/-- The annihilating rotation is recovered from its code. -/
theorem decode_encode (ε τ : ℝ) (z : Bool) (a b : ℝ) :
    decode (encode (Numerics.exact ε τ z) a b) = annihilating a b := by
  have hunit := isUnit_annihilating a b
  -- the sign that the code leaves open is that of the smaller one, the larger one is positive
  rcases lt_or_ge |a| |b| with h | h
  · have hsin : 0 < (annihilating a b).sin := by
      rw [annihilating_of_lt h]
      exact ofQuotient_pos _
    rw [encode, if_pos (show mag a < mag b from h)]
    by_cases hcos : (annihilating a b).cos = 0
    · -- the code of a quarter turn is its sine, which is one
      have hone : (annihilating a b).sin = 1 := by
        rw [IsUnit, hcos] at hunit
        nlinarith
      rw [if_neg (mt (Numerics.invertible_exact ε τ z _).1 (not_not.2 hcos)), ← hone,
        decode_sin hunit hcos.ge]
    · rw [if_pos ((Numerics.invertible_exact ε τ z _).2 hcos), decode_one_div hunit hcos hsin]
  · have hcos : 0 < (annihilating a b).cos := by
      rw [annihilating_of_le h]
      exact ofQuotient_pos _
    rw [encode, if_neg (not_lt.2 h : ¬ mag a < mag b), decode_sin hunit hcos.le]

end Rotation

/-! ### Rotations of two columns -/

section Plane

variable {r k : Nat}

/-- The matrix that combines column `j` with the last one by the rotation `g`. -/
def plane (g : Rotation ℝ) (j : Fin k) : Matrix (Fin (k + 1)) (Fin (k + 1)) ℝ :=
  Matrix.of fun p q =>
    if q = Fin.last k then
      if p = Fin.last k then g.cos else if p = j.castSucc then -g.sin else 0
    else if q = j.castSucc then
      if p = Fin.last k then g.sin else if p = j.castSucc then g.cos else 0
    else if p = q then 1 else 0

variable (g : Rotation ℝ) (j : Fin k) (p : Fin (k + 1))

/-- The last column of a plane rotation. -/
theorem plane_last : plane g j p (Fin.last k) =
    if p = Fin.last k then g.cos else if p = j.castSucc then -g.sin else 0 := if_pos rfl

/-- The column that a plane rotation combines with the last one. -/
theorem plane_castSucc : plane g j p j.castSucc =
    if p = Fin.last k then g.sin else if p = j.castSucc then g.cos else 0 :=
  (if_neg (Fin.castSucc_lt_last j).ne).trans (if_pos rfl)

/-- The other columns of a plane rotation are those of the identity. -/
theorem plane_of_ne {q : Fin (k + 1)} (hlast : q ≠ Fin.last k) (hj : q ≠ j.castSucc) :
    plane g j p q = if p = q then 1 else 0 :=
  (if_neg hlast).trans (if_neg hj)

/-- The columns of a product with such a matrix. -/
theorem mul_plane_apply (a : Matrix (Fin r) (Fin (k + 1)) ℝ) (i : Fin r) (q : Fin (k + 1)) :
    (a * plane g j) i q =
      if q = Fin.last k then (g.apply (a i j.castSucc) (a i (Fin.last k))).2
      else if q = j.castSucc then (g.apply (a i j.castSucc) (a i (Fin.last k))).1
      else a i q := by
  have hne : ∀ p : Fin k, p.castSucc ≠ Fin.last k := fun p => (Fin.castSucc_lt_last p).ne
  -- at most two terms of the sum are not zero: those of column `j` and of the last one
  rw [Matrix.mul_apply]
  by_cases hq : q = Fin.last k
  · rw [if_pos hq, hq, Fin.sum_univ_castSucc]
    simp only [plane_last, hne, if_false, if_true, Fin.castSucc_inj, mul_ite, mul_zero,
      Finset.sum_ite_eq', Finset.mem_univ, Rotation.apply]
    ring
  · by_cases hj : q = j.castSucc
    · rw [if_neg hq, if_pos hj, hj, Fin.sum_univ_castSucc]
      simp only [plane_castSucc, hne, if_false, if_true, Fin.castSucc_inj, mul_ite, mul_zero,
        Finset.sum_ite_eq', Finset.mem_univ, Rotation.apply]
      ring
    · rw [if_neg hq, if_neg hj]
      simp only [plane_of_ne g j _ hq hj, mul_ite, mul_one, mul_zero, Finset.sum_ite_eq',
        Finset.mem_univ, if_true]

/-- The entries of a row multiplied with such a matrix. -/
theorem vecMul_plane_apply (x : Fin (k + 1) → ℝ) (q : Fin (k + 1)) :
    (x ᵥ* plane g j) q =
      if q = Fin.last k then (g.apply (x j.castSucc) (x (Fin.last k))).2
      else if q = j.castSucc then (g.apply (x j.castSucc) (x (Fin.last k))).1
      else x q :=
  mul_plane_apply g j (Matrix.of fun _ : Fin 1 => x) 0 q

/-- The transpose of a plane rotation is that of the inverse rotation. -/
theorem plane_transpose : (plane g j)ᵀ = plane g.inverse j := by
  ext p q
  rw [transpose_apply]
  -- row and column are each the last one, number `j`, or one that is left alone
  rcases eq_or_ne p (Fin.last k) with rfl | hp
  · rcases eq_or_ne q (Fin.last k) with rfl | hq
    · rw [plane_last, plane_last, if_pos rfl, if_pos rfl]
      rfl
    · rcases eq_or_ne q j.castSucc with rfl | hqj
      · rw [plane_last, plane_castSucc, if_neg hq, if_pos rfl, if_pos rfl]
        rfl
      · rw [plane_last, plane_of_ne _ _ _ hq hqj, if_neg hq, if_neg hqj, if_neg hq.symm]
  · rcases eq_or_ne p j.castSucc with rfl | hpj
    · rcases eq_or_ne q (Fin.last k) with rfl | hq
      · rw [plane_castSucc, plane_last, if_pos rfl, if_neg hp, if_pos rfl]
        exact (neg_neg _).symm
      · rcases eq_or_ne q j.castSucc with rfl | hqj
        · rw [plane_castSucc, plane_castSucc, if_neg hp, if_pos rfl, if_neg hp, if_pos rfl]
          rfl
        · rw [plane_castSucc, plane_of_ne _ _ _ hq hqj, if_neg hq, if_neg hqj, if_neg hqj.symm]
    · rw [plane_of_ne _ _ _ hp hpj]
      rcases eq_or_ne q (Fin.last k) with rfl | hq
      · rw [plane_last, if_neg hp, if_neg hpj, if_neg hp.symm]
      · rcases eq_or_ne q j.castSucc with rfl | hqj
        · rw [plane_castSucc, if_neg hp, if_neg hpj, if_neg hpj.symm]
        · rw [plane_of_ne _ _ _ hq hqj]
          simp only [eq_comm]

variable {g}

/-- A rotation of two columns is orthogonal. -/
theorem plane_transpose_mul (hg : g.IsUnit) : (plane g j)ᵀ * plane g j = 1 := by
  have hne : j.castSucc ≠ Fin.last k := (Fin.castSucc_lt_last j).ne
  have hsq : g.cos * g.cos + g.sin * g.sin = 1 := by
    rw [← pow_two, ← pow_two]
    exact hg
  ext p q
  rw [plane_transpose, mul_plane_apply, plane_last, plane_castSucc, Matrix.one_apply]
  by_cases hq : q = Fin.last k
  · rw [if_pos hq, hq]
    by_cases hp : p = Fin.last k
    · simp only [if_pos hp, Rotation.apply, Rotation.inverse]
      linear_combination hsq
    · by_cases hpj : p = j.castSucc
      · simp only [if_neg hp, if_pos hpj, Rotation.apply, Rotation.inverse]
        ring
      · simp only [if_neg hp, if_neg hpj, Rotation.apply]
        ring
  · by_cases hqj : q = j.castSucc
    · rw [if_neg hq, if_pos hqj, hqj]
      by_cases hp : p = Fin.last k
      · simp only [hp, if_true, Rotation.apply, Rotation.inverse, if_neg hne.symm]
        ring
      · by_cases hpj : p = j.castSucc
        · simp only [if_neg hp, if_pos hpj, Rotation.apply, Rotation.inverse]
          linear_combination hsq
        · simp only [if_neg hp, if_neg hpj, Rotation.apply]
          ring
    · rw [if_neg hq, if_neg hqj, plane_of_ne _ j p hq hqj]

/-- The identity combines no columns. -/
theorem plane_identity : plane Rotation.identity j = 1 := by
  ext p q
  rw [Matrix.one_apply]
  rcases eq_or_ne q (Fin.last k) with rfl | hq
  · rw [plane_last]
    simp only [Rotation.identity, neg_zero, ite_self]
  · rcases eq_or_ne q j.castSucc with rfl | hqj
    · rw [plane_castSucc]
      by_cases hp : p = Fin.last k
      · rw [if_pos hp, if_neg (hp ▸ hq.symm)]
        rfl
      · rw [if_neg hp]
        rfl
    · rw [plane_of_ne _ _ _ hq hqj]

end Plane

end NonlinearSolve

import Mathlib.LinearAlgebra.UnitaryGroup
import NonlinearSolve.Proofs.Linear.Packing
import NonlinearSolve.Proofs.Linear.RankOneUpdates

/-! # Rank-one updates that are singular

Each rotation of the second sequence settles one diagonal entry of the updated trapezoid, since
later ones do not touch its column. So the flag of an update that is on its way says whether there
is a zero among the diagonal entries that are settled (`RankOne.Flagged`), and at the end it says so
of the whole diagonal (`Trapezoid.rankOne_singular_iff`). With the packed form, and with rows, this
makes up what an update is for (`Trapezoid.rankOne_rotates`). -/

namespace NonlinearSolve

open Matrix Scalar

variable {m k : Nat}

/-! ### The flag -/

namespace RankOne

variable {α : Type} [Scalar α]

/-- Combining column `j` leaves the other columns before the last one alone. -/
theorem combine_s_of_ne (f : α → α → α × α) (t : State α m k) {j : Fin k} {q : Fin (k + 1)}
    (hq : q ≠ j.castSucc) (i : Fin m) : (combine f t j).s i q = t.s i q := by
  simp only [combine, Trapezoid.setCol_apply]
  rw [if_neg fun h => hq h.1]

/-- The first sequence does not set the flag. -/
theorem singular_collect (nm : Numerics α) (j : Fin k) (t : State α m k) :
    (collect nm j t).singular = t.singular := by
  simp only [collect]
  split <;> rfl

/-- A step of the second sequence sets the flag if its own diagonal entry is zero. -/
theorem singular_eliminate (nm : Numerics α) (hm : k + 1 ≤ m) (t : State α m k) (j : Fin k) :
    (eliminate nm hm t j).singular =
      (t.singular || (eliminate nm hm t j).s (diagonalRow hm j) j.castSucc == 0) := by
  simp only [eliminate]
  split <;> rfl

/-- A step of the second sequence leaves the other columns before the last one alone. -/
theorem eliminate_s_of_ne (nm : Numerics α) (hm : k + 1 ≤ m) (t : State α m k) {j : Fin k}
    {q : Fin (k + 1)} (hq : q ≠ j.castSucc) (i : Fin m) :
    (eliminate nm hm t j).s i q = t.s i q := by
  simp only [eliminate]
  split
  · rfl
  · exact combine_s_of_ne _ t hq i

/-- The flag says whether one of the diagonal entries before column `j` is zero. -/
def Flagged (hm : k + 1 ≤ m) (j : Nat) (t : State ℝ m k) : Prop :=
  t.singular = true ↔ ∃ i : Fin k, i.val < j ∧ t.s (diagonalRow hm i) i.castSucc = 0

/-- A step of the second sequence. -/
theorem Flagged.eliminate {nm : Numerics ℝ} {hm : k + 1 ≤ m} {j : Fin k} {t : State ℝ m k}
    (h : Flagged hm j t) : Flagged hm (j + 1) (eliminate nm hm t j) := by
  -- the entries that were settled before have not changed
  have hkept : ∀ i : Fin k, i.val < j.val →
      (RankOne.eliminate nm hm t j).s (diagonalRow hm i) i.castSucc =
        t.s (diagonalRow hm i) i.castSucc := by
    intro i hi
    exact eliminate_s_of_ne nm hm t (fun heq => hi.ne (congrArg (fun q => q.val) heq)) _
  rw [Flagged] at h
  rw [Flagged, singular_eliminate, Bool.or_eq_true, Exact.beq_iff, h]
  constructor
  · rintro (⟨i, hi, hzero⟩ | hzero)
    · exact ⟨i, Nat.lt_succ_of_lt hi, (hkept i hi).trans hzero⟩
    · exact ⟨j, Nat.lt_succ_self _, hzero⟩
  · rintro ⟨i, hi, hzero⟩
    obtain hlt | heq := Nat.lt_succ_iff_lt_or_eq.1 hi
    · exact Or.inl ⟨i, hlt, (hkept i hlt).symm.trans hzero⟩
    · obtain rfl : i = j := Fin.ext heq
      exact Or.inr hzero

/-- Putting the spike back settles the last diagonal entry. -/
theorem Flagged.finish {hm : k + 1 ≤ m} {t : State ℝ m k} (h : Flagged hm k t) :
    (finish hm t).singular = true ↔ ∃ j : Fin (k + 1), (finish hm t).s (j.castLE hm) j = 0 := by
  have hlast : (RankOne.finish hm t).s ((Fin.last k).castLE hm) (Fin.last k) =
      t.spike ((Fin.last k).castLE hm) := by
    change (t.s.setCol (Fin.last k) t.spike) _ _ = _
    rw [Trapezoid.setCol_apply]
    exact if_pos ⟨rfl, le_rfl⟩
  have hother : ∀ i : Fin k, (RankOne.finish hm t).s (i.castSucc.castLE hm) i.castSucc =
      t.s (diagonalRow hm i) i.castSucc := by
    intro i
    change (t.s.setCol (Fin.last k) t.spike) _ _ = _
    rw [Trapezoid.setCol_apply]
    exact if_neg fun heq => (Fin.castSucc_lt_last i).ne heq.1
  have hflag : (RankOne.finish hm t).singular =
      (t.singular || t.spike ((Fin.last k).castLE hm) == 0) := rfl
  rw [Flagged] at h
  rw [hflag, Bool.or_eq_true, Exact.beq_iff, h, Fin.exists_fin_succ', hlast]
  simp only [hother, Fin.is_lt, true_and]

end RankOne

/-- The flag of a rank-one update says whether there is a zero on the diagonal of the result. -/
theorem Trapezoid.rankOne_singular_iff (nm : Numerics ℝ) {n : Nat} (h : n ≤ m)
    (s : Trapezoid ℝ m n) (u : Vec ℝ m) (v : Vec ℝ n) :
    (s.rankOne nm h u v).singular = true ↔
      ∃ j : Fin n, (s.rankOne nm h u v).s (j.castLE h) j = 0 := by
  cases n with
  | zero => exact ⟨fun hflag => absurd hflag Bool.false_ne_true, fun ⟨j, _⟩ => j.elim0⟩
  | succ k =>
    have hcollected := foldr_invariant (f := RankOne.collect nm)
      (b := RankOne.start s v) (motive := fun _ (t : RankOne.State ℝ m k) => t.singular = false) rfl
      fun j t ht => (RankOne.singular_collect nm j t).trans ht
    set t₁ := Fin.foldr k (RankOne.collect nm) (RankOne.start s v)
    have hflagged := foldl_invariant (f := RankOne.eliminate nm h) (b := RankOne.addSpike u t₁)
      (motive := RankOne.Flagged h)
      ⟨fun hflag => absurd (hcollected.symm.trans hflag) Bool.false_ne_true,
        fun ⟨i, hi, _⟩ => absurd hi (Nat.not_lt_zero _)⟩
      fun j t ht => ht.eliminate
    exact hflagged.finish

/-! ### All of an update -/

/-- The product of a row with rotations that multiply with `G`. -/
theorem ColumnRotations.applyRow_get {n : Nat} {q : ColumnRotations ℝ n}
    {G : Matrix (Fin n) (Fin n) ℝ}
    (hG : ∀ a : Mat ℝ 1 n, (q.apply a).toMatrix = a.toMatrix * G) (b : Vec ℝ n) :
    (q.applyRow b).get = Gᵀ *ᵥ b.get := by
  have hb : (Mat.ofRow b).toMatrix 0 = b.get := funext fun j => Mat.ofRow_apply b 0 j
  rw [mulVec_transpose, ← hb]
  funext j
  exact (Mat.row_apply _ 0 j).trans (congrFun (congrFun (hG (Mat.ofRow b)) 0) j)

/-- In exact arithmetic, a rank-one update finds one orthogonal matrix `Q`: the packed result is the
trapezoid `(S + u vᵀ) Q`, applying the rotations to any matrix multiplies it with `Q` from the
right, and applying them to a row multiplies it with the transpose of `Q`. The update is flagged as
singular if and only if `(S + u vᵀ) Q` has a zero on its diagonal. -/
theorem Trapezoid.rankOne_rotates (ε τ : ℝ) (z : Bool) {n : Nat} (h : n ≤ m) (packed : List ℝ)
    (u : Vec ℝ m) (v : Vec ℝ n) :
    let s := ofPacked m n packed
    let updated := s.rankOne (Numerics.exact ε τ z) h u v
    ∃ Q ∈ Matrix.orthogonalGroup (Fin n) ℝ,
      (ofPacked m n updated.s.toPacked).full.toMatrix =
        (s.full.toMatrix + vecMulVec u.get v.get) * Q ∧
      (∀ {r : Nat} (a : Mat ℝ r n), (updated.rotations.apply a).toMatrix = a.toMatrix * Q) ∧
      (∀ b : Vec ℝ n, (updated.rotations.applyRow b).get = Qᵀ *ᵥ b.get) ∧
      (updated.singular = true ↔
        ∃ j : Fin n, ((s.full.toMatrix + vecMulVec u.get v.get) * Q) (j.castLE h) j = 0) := by
  intro s updated
  obtain ⟨Q, horth, hmatrix, hrotations⟩ := s.rankOne_updates ε τ z h u v
  refine ⟨Q, (Matrix.mem_orthogonalGroup_iff' (Fin n) ℝ).2 horth, ?_, hrotations,
    ColumnRotations.applyRow_get hrotations, ?_⟩
  · rw [ofPacked_toPacked h, hmatrix]
  · rw [s.rankOne_singular_iff _ h u v, ← hmatrix]
    rfl

/-- Taking the first row of the identity away makes it singular: here `S = 1`, `u = (-1, 0)` and
`v = (1, 1)`. -/
theorem Trapezoid.rankOne_rotates_identity :
    2 ≤ 2 ∧ ((ofPacked 2 2 [1, 0, 1]).rankOne (Numerics.exact 1 1 false) (le_refl 2)
      (Vec.of ![-1, 0]) (Vec.of ![1, 1])).singular = true := by
  obtain ⟨Q, -, hmatrix, -, -, hsingular⟩ := rankOne_rotates 1 1 false (le_refl 2) [1, 0, 1]
    (Vec.of ![-1, 0]) (Vec.of ![1, 1])
  set a := (ofPacked 2 2 ([1, 0, 1] : List ℝ)).full.toMatrix +
    vecMulVec (Vec.of ![-1, 0]).get (Vec.of ![1, 1]).get with ha
  have hdet : a.det = 0 := by
    have hfirst : a 0 0 = 0 ∧ a 1 0 = 0 := by
      simp [ha, ofPacked, vecMulVec_apply]
    rw [det_fin_two, hfirst.1, hfirst.2, zero_mul, mul_zero, sub_zero]
  have habove : (a * Q) 0 1 = 0 := by
    rw [← hmatrix]
    exact Trapezoid.apply_of_lt _ (i := 0) (j := 1) Nat.zero_lt_one
  -- the determinant of a triangle is the product of its diagonal
  have hdiag : (a * Q) 0 0 * (a * Q) 1 1 = 0 := by
    have hprod : (a * Q).det = 0 := by rw [det_mul, hdet, zero_mul]
    rwa [det_fin_two, habove, zero_mul, sub_zero] at hprod
  refine ⟨le_refl 2, hsingular.2 ?_⟩
  rcases mul_eq_zero.1 hdiag with hzero | hzero
  · exact ⟨0, hzero⟩
  · exact ⟨1, hzero⟩

end NonlinearSolve

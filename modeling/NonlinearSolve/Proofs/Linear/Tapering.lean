import NonlinearSolve.Proofs.Linear.Pivoting
import NonlinearSolve.Proofs.Linear.Substitution

/-! # Tapered factors

A pivot column of which nothing is left is one with the largest norm, so then nothing is left of the
other columns either. Hence the triangular factor of a factorization with pivoting ends with the
rows before its first diagonal entry that is zero (`QR.tapered_factor`). -/

namespace NonlinearSolve

open Matrix Scalar

variable {m n : Nat}

/-- On and above the diagonal there is nothing in the rows from the first zero of the diagonal
on. -/
def Mat.Tapered (r : Mat ℝ n n) : Prop :=
  ∀ i j : Fin n, r.diagonal.firstZero ≤ i.val → i ≤ j → r i j = 0

/-- A matrix without a zero on the diagonal is tapered. -/
theorem Mat.tapered_of_firstZero {r : Mat ℝ n n} (h : n ≤ r.diagonal.firstZero) : r.Tapered :=
  fun i _ hi _ => absurd i.isLt (Nat.not_lt.2 (h.trans hi))

/-- A transposed tapered matrix does not look at the components after the leading rows. -/
theorem Mat.Tapered.transpose_mulVec_congr {r : Mat ℝ n n} (hr : r.Tapered) {v w : Fin n → ℝ}
    (h : ∀ i : Fin n, i.val < r.diagonal.firstZero → v i = w i) :
    r.upperᵀ *ᵥ v = r.upperᵀ *ᵥ w := by
  funext j
  change ∑ i, r.upper i j * v i = ∑ i, r.upper i j * w i
  refine Finset.sum_congr rfl ?_
  intro i _
  rcases Nat.lt_or_ge i.val r.diagonal.firstZero with hi | hi
  · rw [h i hi]
  · have hzero : r.upper i j = 0 := by
      rcases le_or_gt i j with hij | hji
      · rw [r.upper_of_le hij, hr i j hi hij]
      · exact r.upper_of_lt hji
    rw [hzero, zero_mul, zero_mul]

namespace Elimination

/-- The first zero on the diagonal after `k` steps shows that in the rows and columns from there on
nothing is left. -/
def Tapers (e : Elimination ℝ m n) (k : Nat) : Prop :=
  ∀ l : Fin n, l.val < k → e.rdiag l = 0 →
    ∀ (r : Fin m) (c : Fin n), l.val ≤ r.val → l.val ≤ c.val → reduced e k r c = 0

/-- A column without entries from row `k` on has nothing left there. -/
theorem tailSq_eq_zero {c : Vec ℝ m} {k : Nat} (h : ∀ r : Fin m, k ≤ r.val → c r = 0) :
    tailSq c k = 0 := by
  refine Finset.sum_eq_zero ?_
  intro r _
  split
  · next hr => rw [h r hr, zero_pow two_ne_zero]
  · rfl

variable {e : Elimination ℝ m n} {i : Fin m} {j : Fin n} {ε τ : ℝ} {z : Bool}

/-- Exchanging columns still to come leaves zeros where nothing is left. -/
theorem Tapers.exchange {k : Nat} (h : Tapers e k) {p : Fin n} (hj : k ≤ j.val) (hp : k ≤ p.val) :
    Tapers (e.exchange j p) k := by
  intro l hl hzero r c hr hc
  have hlj : l ≠ j := Fin.ne_of_val_ne (by omega)
  have hlp : l ≠ p := Fin.ne_of_val_ne (by omega)
  rw [rdiag_exchange, Equiv.swap_apply_of_ne_of_ne hlj hlp] at hzero
  rw [reduced_exchange e hj hp, submatrix_apply]
  exact h l hl hzero r _ hr (le_swap (by omega) (by omega) hc)

/-- The elimination of a column of which as much is left as of any other. -/
theorem Tapers.reduce (h : Tapers e j) (hij : i.val = j.val)
    (hmax : ∀ l, j ≤ l → remainder e i l l ≤ remainder e i j j) :
    Tapers (e.reduce (Numerics.exact ε τ z) true i j) (j + 1) := by
  intro l hl hdiag
  by_cases hzero : tailSq (e.a.col j) i = 0
  · rw [reduced_reduce_of_eq_zero ε τ z hij hzero]
    obtain hlt | heq := Nat.lt_succ_iff_lt_or_eq.1 hl
    · rw [reduce_rdiag_of_lt ε τ z true e hlt] at hdiag
      exact h l hlt hdiag
    · -- nothing is left of the pivot column, hence of no column
      obtain rfl : l = j := Fin.ext heq
      intro r c hr hc
      have hleft := hmax c hc
      rw [remainder.eq_def e i l l, tailDot_self, hzero] at hleft
      rw [reduced_of_le e r hc]
      exact apply_eq_zero_of_remainder (le_antisymm hleft (remainder_nonneg e i c)) (by omega)
  · -- there is something to eliminate, so there was no zero on the diagonal before
    exfalso
    obtain hlt | heq := Nat.lt_succ_iff_lt_or_eq.1 hl
    · rw [reduce_rdiag_of_lt ε τ z true e hlt] at hdiag
      refine hzero (tailSq_eq_zero ?_)
      intro r hr
      have hvanish := h l hlt hdiag r j (by omega) (by omega)
      rwa [reduced_of_le e r le_rfl] at hvanish
    · obtain rfl : l = j := Fin.ext heq
      have hsq := rdiag_reduce_sq (ε := ε) (τ := τ) (z := z) e i l
      rw [hdiag, zero_pow two_ne_zero, remainder, tailDot_self] at hsq
      exact hzero hsq.symm

/-- After any number of steps. -/
theorem tapers_after (a : Mat ℝ m n) {k : Nat} (hm : k ≤ m) (hn : k ≤ n) :
    Tapers (after (Numerics.exact ε τ z) true a k) k := by
  induction k with
  | zero => exact fun l hl => absurd hl (Nat.not_lt_zero _)
  | succ k ih =>
    have htapers := ih (Nat.le_of_succ_le hm) (Nat.le_of_succ_le hn)
    have hnorms : KeepsNorms (after (Numerics.exact ε τ z) true a k) k :=
      (lockstep_after (ε := ε) (τ := τ) (z := z) (a := a) rfl (Nat.le_of_succ_le hm)
        (Nat.le_of_succ_le hm) (Nat.le_of_succ_le hn)).norms
    have hp := le_pivotColumn (after (Numerics.exact ε τ z) true a k) ⟨k, hn⟩
    rw [after, dif_pos ⟨hm, hn⟩, step, if_pos rfl]
    exact (htapers.exchange (j := ⟨k, hn⟩) le_rfl hp).reduce (i := ⟨k, hm⟩) rfl
      fun l hl => KeepsNorms.remainder_le (j := ⟨k, hn⟩) hnorms hl

end Elimination

/-- The triangular factor of a factorization with pivoting is tapered. -/
theorem QR.tapered_factor (ε τ : ℝ) (z : Bool) (h : n ≤ m) (a : Mat ℝ m n) :
    (((factor (Numerics.exact ε τ z) true a).a.withDiagonal
      (factor (Numerics.exact ε τ z) true a).rdiag).leading h).Tapered := by
  have hafter := Elimination.tapers_after (ε := ε) (τ := τ) (z := z) a h le_rfl
  have hmin : min m n = n := min_eq_right h
  rw [factor, hmin]
  set e := Elimination.after (Numerics.exact ε τ z) true a n
  intro i j hi hij
  set k := (((e.a.withDiagonal e.rdiag).leading h).diagonal).firstZero with hk
  have hlt : k < n := lt_of_le_of_lt hi i.isLt
  have hzero : e.rdiag ⟨k, hlt⟩ = 0 := by
    have hdiag := Vec.eq_zero_of_eq_firstZero (j := ⟨k, hlt⟩) hk
    rwa [Mat.diagonal_apply, Mat.leading_apply, Mat.withDiagonal_apply, Fin.val_castLE,
      if_pos rfl] at hdiag
  have hentry : (e.a.withDiagonal e.rdiag).leading h i j =
      Elimination.reduced e n (i.castLE h) j := by
    rw [Elimination.reduced_of_lt e _ j.isLt, Mat.leading_apply, Mat.withDiagonal_apply,
      Fin.val_castLE]
    obtain rfl | hlt := hij.eq_or_lt
    · rw [if_pos rfl, if_neg (lt_irrefl _), if_pos rfl]
    · have hval : i.val < j.val := hlt
      rw [if_neg hval.ne, if_pos hval]
  rw [hentry]
  exact hafter ⟨k, hlt⟩ hlt hzero (i.castLE h) j hi (hi.trans hij)

end NonlinearSolve

import NonlinearSolve.Proofs.Linear.Tapering

/-! # The order of the pivots

Pivoting only reorders the columns, in any arithmetic (`Elimination.bijective_order_after`). In
exact arithmetic the norms that are carried along from step to step are the norms of what is left of
the columns (`Elimination.keepsNorms_after`), so every pivot is a column with the most left of it.
What is left of a column never grows, and therefore the diagonal of the triangular factor does not
grow in magnitude (`Elimination.Ordered`); where it is zero, nothing is left of any column.
`QR.factor_pivots_by_norm` puts this together. -/

namespace NonlinearSolve

open Matrix Scalar

variable {m n : Nat}

namespace Elimination

/-! ### The order of the columns -/

/-- After any number of steps the order lists every column once. -/
theorem bijective_order_after {α : Type} [Scalar α] (nm : Numerics α) (pivot : Bool) (a : Mat α m n)
    (k : Nat) : Function.Bijective (after nm pivot a k).order.get := by
  induction k with
  | zero =>
    rw [after, start, Vec.get_identity]
    exact Function.bijective_id
  | succ k ih =>
    rw [after]
    split
    · rw [step]
      split
      · -- only the exchange changes the order
        rw [reduce_order, exchange_order]
        exact ih.comp (Equiv.swap _ _).bijective
      · rw [reduce_order]
        exact ih
    · exact ih

variable {e : Elimination ℝ m n} {i : Fin m} {j : Fin n} {ε τ : ℝ} {z : Bool}

/-- At the start of every step the norms of what is left of the columns are known. -/
theorem keepsNorms_after (a : Mat ℝ m n) {k : Nat} (hm : k ≤ m) (hn : k ≤ n) :
    KeepsNorms (after (Numerics.exact ε τ z) true a k) k :=
  (lockstep_after (ε := ε) (τ := τ) (z := z) (a := a) rfl hm hm hn).norms

/-! ### One step -/

/-- A step leaves the finished diagonal entries alone. -/
theorem step_rdiag_of_lt (e : Elimination ℝ m n) (i : Fin m) {l : Fin n} (hl : l < j) :
    (e.step (Numerics.exact ε τ z) true i j).rdiag l = e.rdiag l := by
  have hp : l < e.pivotColumn j := hl.trans_le (le_pivotColumn e j)
  rw [step, if_pos rfl, reduce_rdiag_of_lt ε τ z true _ hl, rdiag_exchange,
    Equiv.swap_apply_of_ne_of_ne hl.ne hp.ne]

/-- The square of the new diagonal entry is what was left of the pivot, and no other column had more
left. -/
theorem KeepsNorms.remainder_le_step (h : KeepsNorms e j) (hij : i.val = j.val) {c : Fin n}
    (hc : j ≤ c) :
    remainder e j c c ≤ (e.step (Numerics.exact ε τ z) true i j).rdiag j ^ 2 := by
  set p := e.pivotColumn j with hp
  have hjp : j ≤ p := le_pivotColumn e j
  have hswap : j ≤ Equiv.swap j p c := le_swap le_rfl hjp hc
  -- in the exchanged matrix the column stands where the exchange has put it
  have hle := h.remainder_le hswap
  rw [remainder_exchange, ← hp, Equiv.swap_apply_self] at hle
  rw [step, if_pos rfl, rdiag_reduce_sq, hij]
  exact hle

/-- What is left of a column after a step was left of some column before it, and may have become
less. -/
theorem KeepsNorms.remainder_step_le (h : KeepsNorms e j) (hij : i.val = j.val) {c : Fin n}
    (hc : j < c) :
    ∃ c', j ≤ c' ∧
      remainder (e.step (Numerics.exact ε τ z) true i j) (j + 1) c c ≤ remainder e j c' c' := by
  set p := e.pivotColumn j with hp
  have hjp : j ≤ p := le_pivotColumn e j
  have hmax : ∀ l, j ≤ l →
      remainder (e.exchange j p) i l l ≤ remainder (e.exchange j p) i j j := by
    rw [hij]
    exact fun l hl => h.remainder_le hl
  refine ⟨Equiv.swap j p c, le_swap le_rfl hjp hc.le, ?_⟩
  -- the Schur complement takes a quotient off that is not negative
  have hshare : 0 ≤ remainder (e.exchange j p) i j c * remainder (e.exchange j p) i j c /
      remainder (e.exchange j p) i j j :=
    div_nonneg (mul_self_nonneg _) (remainder_nonneg _ _ _)
  have hschur := remainder_reduce (ε := ε) (τ := τ) (z := z) (e.exchange j p) hmax hc hc
  rw [hij] at hschur hshare
  rw [step, if_pos rfl, ← hp, hschur, ← remainder_exchange]
  exact sub_le_self _ hshare

/-! ### All steps -/

/-- The diagonal entries of the first `k` columns do not grow in magnitude, and none of the columns
still to come has more left than any of them. -/
structure Ordered (e : Elimination ℝ m n) (k : Nat) : Prop where
  rdiag_sq_le (l l' : Fin n) : l ≤ l' → l'.val < k → e.rdiag l' ^ 2 ≤ e.rdiag l ^ 2
  remainder_le (l c : Fin n) : l.val < k → k ≤ c.val → remainder e k c c ≤ e.rdiag l ^ 2

/-- A step keeps the diagonal in order. -/
theorem Ordered.step (h : Ordered e j) (hnorms : KeepsNorms e j) (hij : i.val = j.val) :
    Ordered (e.step (Numerics.exact ε τ z) true i j) (j + 1) := by
  set e' := e.step (Numerics.exact ε τ z) true i j with he'
  have hkeep : ∀ l, l < j → e'.rdiag l = e.rdiag l := fun l hl => step_rdiag_of_lt e i hl
  -- the new entry is what was left of some column
  have hnew : ∀ l, l < j → e'.rdiag j ^ 2 ≤ e.rdiag l ^ 2 := by
    intro l hl
    rw [he', Elimination.step, if_pos rfl, rdiag_reduce_sq, remainder_exchange,
      Equiv.swap_apply_left, hij]
    exact h.remainder_le l _ hl (le_pivotColumn e j)
  constructor
  · intro l l' hll' hl'
    obtain hlt | heq := Nat.lt_succ_iff_lt_or_eq.1 hl'
    · rw [hkeep l' hlt, hkeep l (lt_of_le_of_lt hll' hlt)]
      exact h.rdiag_sq_le l l' hll' hlt
    · obtain rfl : l' = j := Fin.ext heq
      obtain rfl | hlt := hll'.eq_or_lt
      · exact le_rfl
      · rw [hkeep l hlt]
        exact hnew l hlt
  · intro l c hl hc
    obtain ⟨c', hc', hle⟩ := hnorms.remainder_step_le (ε := ε) (τ := τ) (z := z) hij
      (show j < c from hc)
    obtain hlt | heq := Nat.lt_succ_iff_lt_or_eq.1 hl
    · rw [hkeep l hlt]
      exact hle.trans (h.remainder_le l c' hlt hc')
    · obtain rfl : l = j := Fin.ext heq
      exact hle.trans (hnorms.remainder_le_step hij hc')

/-- After any number of steps the diagonal is in order. -/
theorem ordered_after (a : Mat ℝ m n) {k : Nat} (hm : k ≤ m) (hn : k ≤ n) :
    Ordered (after (Numerics.exact ε τ z) true a k) k := by
  induction k with
  | zero =>
    exact ⟨fun _ _ _ hl => absurd hl (Nat.not_lt_zero _),
      fun _ _ hl => absurd hl (Nat.not_lt_zero _)⟩
  | succ k ih =>
    have hm' : k ≤ m := Nat.le_of_succ_le hm
    have hn' : k ≤ n := Nat.le_of_succ_le hn
    rw [after, dif_pos ⟨hm, hn⟩]
    exact (ih hm' hn').step (j := ⟨k, hn⟩) (keepsNorms_after a hm' hn') rfl

/-- A diagonal entry stays as the step of its column has left it. -/
theorem rdiag_after_of_le (a : Mat ℝ m n) {k k' : Nat} (hk : k ≤ k') {l : Fin n} (hl : l.val < k) :
    (after (Numerics.exact ε τ z) true a k').rdiag l =
      (after (Numerics.exact ε τ z) true a k).rdiag l := by
  induction hk with
  | refl => rfl
  | step hkk' ih =>
    rw [after]
    split
    · rw [step_rdiag_of_lt _ _ (Fin.lt_def.2 (hl.trans_le hkk')), ih]
    · exact ih

end Elimination

namespace QR

open Elimination

/-- The ordering of a factorization lists every column once. -/
theorem bijective_order {α : Type} [Scalar α] (nm : Numerics α) (pivot : Bool) (a : Mat α m n) :
    Function.Bijective (factor nm pivot a).order.get :=
  bijective_order_after nm pivot a _

/-- Pivoting in any arithmetic lists every column once and returns the norms of the given columns.
In exact arithmetic the norms of what is left of the columns are known at the start of every step,
whether they were computed afresh or not. So no remaining column is longer than the diagonal entry
that the step makes, the diagonal does not grow in magnitude, and from its first zero on the
triangular factor has rows of zeros only. -/
theorem factor_pivots_by_norm (m n : Nat) :
    (∀ {α : Type} [Scalar α] (nm : Numerics α) (a : Mat α m n),
      Function.Bijective (factor nm true a).order.get ∧
        ∀ j, (factor nm true a).colNorm j = nm.vecNorm (a.col j)) ∧
    ∀ (ε τ : ℝ) (z : Bool) (a : Mat ℝ m n),
      let nm := Numerics.exact ε τ z
      let qr := factor nm true a
      (∀ k, k ≤ min m n → ∀ l : Fin n, k ≤ l.val →
        (after nm true a k).rdiag l = nm.tailNorm ((after nm true a k).a.col l) k) ∧
      (∀ j l : Fin n, j.val < m → j ≤ l →
        nm.tailNorm ((after nm true a j).a.col l) j ≤ |qr.rdiag j|) ∧
      (∀ j l : Fin n, j ≤ l → l.val < m → |qr.rdiag l| ≤ |qr.rdiag j|) ∧
      ∀ j : Fin n, j.val < m → qr.rdiag j = 0 →
        ∀ (i : Fin m) (l : Fin n), j.val ≤ i.val → qr.triangle i l = 0 := by
  constructor
  · intro α _ nm a
    refine ⟨bijective_order nm true a, ?_⟩
    intro j
    rw [factor_colNorm, Vec.of_apply]
  · intro ε τ z a nm qr
    have hm : min m n ≤ m := min_le_left m n
    have hn : min m n ≤ n := min_le_right m n
    have hordered : Ordered (after nm true a (min m n)) (min m n) := ordered_after a hm hn
    refine ⟨?_, ?_, ?_, ?_⟩
    · intro k hk l hl
      rw [keepsNorms_after a (hk.trans hm) (hk.trans hn) l hl, remainder, tailDot_self, tailNorm_eq]
    · intro j l hj hl
      have hnorms : KeepsNorms (after nm true a j) j := keepsNorms_after a hj.le j.isLt.le
      have hstep := hnorms.remainder_le_step (i := ⟨j, hj⟩) (ε := ε) (τ := τ) (z := z) rfl hl
      have hfinal : qr.rdiag j = (after nm true a (j + 1)).rdiag j :=
        rdiag_after_of_le a (Nat.succ_le_of_lt (lt_min hj j.isLt)) (Nat.lt_succ_self _)
      rw [remainder, tailDot_self] at hstep
      rw [hfinal, after, dif_pos ⟨hj, j.isLt⟩, tailNorm_eq]
      exact Real.sqrt_le_iff.2 ⟨abs_nonneg _, hstep.trans_eq (sq_abs _).symm⟩
    · intro j l hjl hl
      exact sq_le_sq.1 (hordered.rdiag_sq_le j l hjl (lt_min hl l.isLt))
    · intro j hj hzero i l hji
      have htapers : Tapers (after nm true a (min m n)) (min m n) := tapers_after a hm hn
      change (after nm true a (min m n)).toQR.triangle i l = 0
      rw [← reduced_eq_triangle]
      by_cases hjl : j.val ≤ l.val
      · exact htapers j (lt_min hj j.isLt) hzero i l hji hjl
      · -- further to the left the row lies below the diagonal
        rw [reduced_of_lt _ i (lt_min (by omega) l.isLt), if_neg (by omega), if_neg (by omega)]

end QR

end NonlinearSolve

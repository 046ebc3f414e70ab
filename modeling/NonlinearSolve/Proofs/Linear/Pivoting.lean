import NonlinearSolve.Proofs.Linear.Factorization
import NonlinearSolve.Proofs.Linear.NormalEquations

/-! # Pivoting depends on the normal equations

The columns that are exchanged in a factorization with pivoting are chosen by the norms of what is
left of them. What is left of the scalar products of the columns (`Elimination.remainder`) is
determined by the scalar products at the beginning: every step takes a Schur complement
(`Elimination.remainder_reduce`). Hence two matrices whose columns have the same scalar products are
eliminated in lockstep (`Elimination.Lockstep`), whatever their numbers of rows are, and end with
the same order and with the same diagonal but for signs (`QR.factor_lockstep`). -/

namespace NonlinearSolve

open Matrix Scalar Householder

variable {m m' n : Nat}

namespace Elimination

/-! ### What is left of a scalar product -/

/-- The scalar product of two columns from row `k` on. -/
def tailDot (c d : Vec ℝ m) (k : Nat) : ℝ := ∑ r : Fin m, if k ≤ r.val then c r * d r else 0

/-- A column times itself is its sum of squares. -/
theorem tailDot_self (c : Vec ℝ m) (k : Nat) : tailDot c c k = tailSq c k := by
  simp only [tailDot, tailSq, pow_two]

/-- The first row split off. -/
theorem tailDot_eq (c d : Vec ℝ m) (i : Fin m) :
    tailDot c d i = c i * d i + tailDot c d (i + 1) :=
  Exact.sum_ge (fun r => c r * d r) i

/-- The scalar product of two tails. -/
theorem tail_dotProduct (c d : Vec ℝ m) (i : Fin m) : tail c i ⬝ᵥ tail d i = tailDot c d i := by
  rw [dotProduct, tailDot]
  refine Finset.sum_congr rfl ?_
  intro r _
  rw [tail, tail]
  by_cases hr : i ≤ r
  · rw [if_pos hr, if_pos hr, if_pos (show i.val ≤ r.val from hr)]
  · rw [if_neg hr, if_neg hr, if_neg (show ¬ i.val ≤ r.val from hr), mul_zero]

/-- Reflecting a column reflects the part of it from row `i` on. -/
theorem tail_reflect (w c : Vec ℝ m) (i : Fin m) :
    tail (reflect w i c) i = reflection w i *ᵥ tail c i := by
  have hdot : tail w i ⬝ᵥ tail c i = tail w i ⬝ᵥ c.get := by
    refine Finset.sum_congr rfl ?_
    intro r _
    rw [tail, tail]
    split
    · rfl
    · rw [zero_mul, zero_mul]
  funext r
  rw [reflection, sub_mulVec, one_mulVec, smul_mulVec, vecMulVec_mulVec, hdot,
    ← sumWhere_eq_tail_dotProduct]
  simp only [reflect, tail, Vec.of_apply, Pi.sub_apply, Pi.smul_apply]
  by_cases hr : i ≤ r
  · simp only [if_pos hr, MulOpposite.smul_eq_mul_unop, MulOpposite.unop_op, smul_eq_mul]
    ring
  · simp only [if_neg hr, smul_zero, sub_zero]

/-- A reflection keeps scalar products from row `i` on. -/
theorem tailDot_reflect {w : Vec ℝ m} {i : Fin m} (hw : IsReflector w i) (c d : Vec ℝ m) :
    tailDot (reflect w i c) (reflect w i d) i = tailDot c d i := by
  rw [← tail_dotProduct, tail_reflect, tail_reflect, dotProduct_mulVec, ← mulVec_transpose,
    reflection_transpose, mulVec_mulVec, reflection_mul_self hw, one_mulVec, tail_dotProduct]

/-- What is left of the scalar product of two columns after `k` steps. -/
def remainder (e : Elimination ℝ m n) (k : Nat) (l l' : Fin n) : ℝ :=
  tailDot (e.a.col l) (e.a.col l') k

/-- What is left of the square of a column is not negative. -/
theorem remainder_nonneg (e : Elimination ℝ m n) (k : Nat) (l : Fin n) :
    0 ≤ remainder e k l l := by
  rw [remainder, tailDot_self]
  exact tailSq_nonneg _ k

/-- Nothing is left of a scalar product with a column of which nothing is left. -/
theorem apply_eq_zero_of_remainder {e : Elimination ℝ m n} {k : Nat} {l : Fin n}
    (h : remainder e k l l = 0) {r : Fin m} (hr : k ≤ r.val) : e.a r l = 0 := by
  rw [remainder, tailDot_self] at h
  exact eq_zero_of_tailSq h hr

variable {ε τ : ℝ} {z : Bool}

section Reduce

variable (e : Elimination ℝ m n) {i : Fin m} {j : Fin n}

/-- The elimination of a column of which something is left. -/
theorem remainder_reduce_of_ne (hne : tailSq (e.a.col j) i ≠ 0) {l l' : Fin n} (hl : j < l)
    (hl' : j < l') :
    remainder (e.reduce (Numerics.exact ε τ z) true i j) i l l' = remainder e i l l' ∧
      remainder (e.reduce (Numerics.exact ε τ z) true i j) (i + 1) l l' =
        remainder e i l l' - remainder e i j l * remainder e i j l' / remainder e i j j := by
  set scale := signedNorm (Numerics.exact ε τ z) (e.a.col j) i with hscale
  set w := reflector (e.a.col j) i scale with hw
  have hsq : scale ^ 2 = tailSq (e.a.col j) i := signedNorm_sq _ _
  have hsign : 0 ≤ e.a.col j i / scale := div_signedNorm_nonneg _ _
  have hscale_ne : scale ≠ 0 := signedNorm_ne_zero hne
  have hrefl : IsReflector w i := isReflector_signedNorm hne
  have hcol : ∀ q : Fin n, j < q →
      (e.reduce (Numerics.exact ε τ z) true i j).a.col q = reflect w i (e.a.col q) := by
    intro q hq
    refine Vec.ext ?_
    intro r
    rw [Mat.col_apply, reduce_a_of_ne ε τ z true e hne, if_neg hq.ne', if_pos hq]
  -- the pivot column becomes a multiple of a unit vector, so its scalar products show in row `i`
  have hentry : ∀ q : Fin n, remainder e i j q = -scale * reflect w i (e.a.col q) i := by
    intro q
    have hrest : tailDot (reflect w i (e.a.col j)) (reflect w i (e.a.col q)) (i + 1) = 0 := by
      refine Finset.sum_eq_zero ?_
      intro r _
      split
      · next hr =>
        have hir : i < r := Fin.lt_def.2 (by omega)
        rw [reflect_reflector hscale_ne hsq hsign, if_neg hir.not_gt, if_neg hir.ne', zero_mul]
      · rfl
    rw [remainder, ← tailDot_reflect hrefl, tailDot_eq, hrest, add_zero,
      reflect_reflector hscale_ne hsq hsign, if_neg (lt_irrefl _), if_pos rfl]
  have hdiag : remainder e i j j = scale ^ 2 := by rw [remainder, tailDot_self, hsq]
  have hkeep :
      remainder (e.reduce (Numerics.exact ε τ z) true i j) i l l' = remainder e i l l' := by
    rw [remainder, hcol l hl, hcol l' hl', tailDot_reflect hrefl]
    rfl
  refine ⟨hkeep, ?_⟩
  rw [← hkeep, remainder, remainder, tailDot_eq, hcol l hl, hcol l' hl', hentry l, hentry l', hdiag]
  field_simp
  ring

/-- If no column has more left than the pivot column, an elimination takes a Schur complement. -/
theorem remainder_reduce (hmax : ∀ l, j ≤ l → remainder e i l l ≤ remainder e i j j) {l l' : Fin n}
    (hl : j < l) (hl' : j < l') :
    remainder (e.reduce (Numerics.exact ε τ z) true i j) (i + 1) l l' =
      remainder e i l l' - remainder e i j l * remainder e i j l' / remainder e i j j := by
  by_cases hzero : tailSq (e.a.col j) i = 0
  · -- nothing is left of the pivot column, hence of no column, and the Schur complement divides by
    -- zero
    have hpivot : remainder e i j j = 0 := by rw [remainder, tailDot_self, hzero]
    have hleft : remainder e i l l = 0 :=
      le_antisymm (hpivot ▸ hmax l hl.le) (remainder_nonneg e i l)
    rw [reduce_of_eq_zero ε τ z true e hzero, hpivot, div_zero, sub_zero, remainder, remainder,
      tailDot_eq (e.a.col l)]
    change _ = e.a i l * e.a.col l' i + _
    rw [apply_eq_zero_of_remainder hleft le_rfl, zero_mul, zero_add]
  · exact (remainder_reduce_of_ne e hzero hl hl').2

/-! ### The norms that are kept -/

/-- The norms of the columns still to come are known. -/
def KeepsNorms (e : Elimination ℝ m n) (k : Nat) : Prop :=
  ∀ l : Fin n, k ≤ l.val → e.rdiag l = √(remainder e k l l)

/-- In exact arithmetic the downdated norm is the norm of what is left, also when it is not computed
afresh. -/
theorem downdate_fst (c : Vec ℝ m) (i : Fin m) (reference : ℝ) :
    (downdate (Numerics.exact ε τ z) c i √(tailSq c i) reference).1 = √(tailSq c (i + 1)) := by
  have hsplit : tailSq c i = c i ^ 2 + tailSq c (i + 1) := by
    rw [← tailDot_self, ← tailDot_self, tailDot_eq, pow_two]
  have hnonneg := tailSq_nonneg c (i + 1)
  rw [downdate]
  by_cases hzero : √(tailSq c i) = 0
  · rw [if_pos ((Exact.beq_iff _ _).2 hzero)]
    rw [Real.sqrt_eq_zero (tailSq_nonneg c i)] at hzero
    have hrest : tailSq c (i + 1) = 0 := by
      have hsq := sq_nonneg (c i)
      linarith
    rw [hzero, hrest]
  · have hpos : 0 < tailSq c i := by
      refine lt_of_le_of_ne (tailSq_nonneg c i) fun h => hzero ?_
      rw [← h, Real.sqrt_zero]
    -- the factor of the downdate is the quotient of what is left after and before the step
    have hdiff : 1 - c i / √(tailSq c i) * (c i / √(tailSq c i)) =
        tailSq c (i + 1) / tailSq c i := by
      rw [div_mul_div_comm, Real.mul_self_sqrt hpos.le, eq_div_iff hpos.ne', sub_mul,
        div_mul_cancel₀ _ hpos.ne', hsplit]
      ring
    have hrest : √(tailSq c i) * √(tailSq c (i + 1) / tailSq c i) = √(tailSq c (i + 1)) := by
      rw [← Real.sqrt_mul hpos.le, mul_div_cancel₀ _ hpos.ne']
    rw [if_neg (mt (Exact.beq_iff _ _).1 hzero)]
    simp only [Exact.maxNum_eq, hdiff, Exact.sqrt_eq]
    rw [max_eq_right (div_nonneg hnonneg hpos.le), hrest]
    split
    · -- the norm is computed anew, with the same result
      exact tailNorm_eq (ε := ε) (τ := τ) (z := z) c (i + 1)
    · rfl

variable {e}

/-- An elimination keeps track of the norms, if no column has more left than the pivot column. -/
theorem KeepsNorms.reduce (h : KeepsNorms e i) (hij : i.val = j.val)
    (hmax : ∀ l, j ≤ l → remainder e i l l ≤ remainder e i j j) :
    KeepsNorms (e.reduce (Numerics.exact ε τ z) true i j) (i + 1) := by
  intro l hl
  have hjl : j < l := Fin.lt_def.2 (by omega)
  by_cases hzero : tailSq (e.a.col j) i = 0
  · have hpivot : remainder e i j j = 0 := by rw [remainder, tailDot_self, hzero]
    rw [remainder_reduce e hmax hjl hjl, hpivot, div_zero, sub_zero,
      reduce_of_eq_zero ε τ z true e hzero, Vec.set_apply, if_neg hjl.ne']
    exact h l (by omega)
  · have hkeep := (remainder_reduce_of_ne (ε := ε) (τ := τ) (z := z) e hzero hjl hjl).1
    rw [reduce_rdiag_of_ne ε τ z true e hzero, if_neg hjl.ne', if_pos ⟨hjl, rfl⟩, h l (by omega),
      ← hkeep, remainder, remainder, tailDot_self, tailDot_self]
    exact downdate_fst _ i _

/-- The square of the diagonal entry is what was left of the pivot column. -/
theorem rdiag_reduce_sq (e : Elimination ℝ m n) (i : Fin m) (j : Fin n) :
    (e.reduce (Numerics.exact ε τ z) true i j).rdiag j ^ 2 = remainder e i j j := by
  rw [remainder, tailDot_self]
  by_cases hzero : tailSq (e.a.col j) i = 0
  · rw [reduce_of_eq_zero ε τ z true e hzero, Vec.set_apply, if_pos rfl, hzero,
      zero_pow two_ne_zero]
  · rw [reduce_rdiag_of_ne ε τ z true e hzero, if_pos rfl, neg_sq, signedNorm_sq]

end Reduce

/-! ### Pivots -/

/-- The pivot column is one with the largest norm. -/
theorem rdiag_le_pivotColumn (e : Elimination ℝ m n) (j : Fin n) {l : Fin n} (hl : j ≤ l) :
    e.rdiag l ≤ e.rdiag (e.pivotColumn j) := by
  have hloop := foldl_invariant
    (f := fun best k => if j ≤ k ∧ e.rdiag best < e.rdiag k then k else best) (b := j)
    (motive := fun k best => ∀ l : Fin n, j ≤ l → l.val < k → e.rdiag l ≤ e.rdiag best)
    (fun l _ hl => absurd hl (Nat.not_lt_zero _)) fun k best hbest l hjl hl => by
      by_cases hk : j ≤ k ∧ e.rdiag best < e.rdiag k
      · rw [if_pos hk]
        obtain hlt | heq := Nat.lt_succ_iff_lt_or_eq.1 hl
        · exact (hbest l hjl hlt).trans hk.2.le
        · exact (congrArg e.rdiag.get (Fin.ext heq)).le
      · rw [if_neg hk]
        obtain hlt | heq := Nat.lt_succ_iff_lt_or_eq.1 hl
        · exact hbest l hjl hlt
        · obtain rfl : l = k := Fin.ext heq
          exact not_lt.1 fun hlt => hk ⟨hjl, hlt⟩
  exact hloop l hl l.isLt

/-- The pivot column depends on the norms of the columns still to come only. -/
theorem pivotColumn_congr {e : Elimination ℝ m n} {e' : Elimination ℝ m' n} {j : Fin n}
    (h : ∀ l, j ≤ l → e.rdiag l = e'.rdiag l) : e.pivotColumn j = e'.pivotColumn j := by
  -- by induction on the number of candidates `f i`, the best one so far being among the columns
  -- still to come
  have hloop : ∀ {k : Nat} (f : Fin k → Fin n) (best : Fin n), j ≤ best →
      Fin.foldl k (fun best i =>
        if j ≤ f i ∧ e.rdiag best < e.rdiag (f i) then f i else best) best =
      Fin.foldl k (fun best i =>
        if j ≤ f i ∧ e'.rdiag best < e'.rdiag (f i) then f i else best) best := by
    intro k f
    induction k with
    | zero => exact fun _ _ => rfl
    | succ k ih =>
      intro best hbest
      have hiff : (j ≤ f 0 ∧ e.rdiag best < e.rdiag (f 0)) ↔
          (j ≤ f 0 ∧ e'.rdiag best < e'.rdiag (f 0)) := by
        refine and_congr_right ?_
        intro hle
        rw [h best hbest, h _ hle]
      rw [Fin.foldl_succ, Fin.foldl_succ]
      by_cases hk : j ≤ f 0 ∧ e.rdiag best < e.rdiag (f 0)
      · rw [if_pos hk, if_pos (hiff.1 hk)]
        exact ih (fun i => f i.succ) (f 0) hk.1
      · rw [if_neg hk, if_neg (mt hiff.2 hk)]
        exact ih (fun i => f i.succ) best hbest
  exact hloop id j le_rfl

section Exchange

variable {e : Elimination ℝ m n} {j p : Fin n} {k : Nat}

/-- Exchanging two columns exchanges what is left of them. -/
theorem remainder_exchange (e : Elimination ℝ m n) (j p : Fin n) (k : Nat) (l l' : Fin n) :
    remainder (e.exchange j p) k l l' =
      remainder e k (Equiv.swap j p l) (Equiv.swap j p l') := by
  have hcol : ∀ q, (e.exchange j p).a.col q = e.a.col (Equiv.swap j p q) := fun q =>
    Vec.ext fun r => exchange_a e j p r q
  rw [remainder, remainder, hcol, hcol]

/-- Exchanging two columns exchanges their norms. -/
theorem rdiag_exchange (e : Elimination ℝ m n) (j p l : Fin n) :
    (e.exchange j p).rdiag l = e.rdiag (Equiv.swap j p l) := swap_eq e.rdiag j p l

/-- An exchange of columns still to come takes them to columns still to come. -/
theorem le_swap (hj : k ≤ j.val) (hp : k ≤ p.val) {l : Fin n} (hl : k ≤ l.val) :
    k ≤ (Equiv.swap j p l).val := by
  rw [Equiv.swap_apply_def]
  split
  · exact hp
  · split
    · exact hj
    · exact hl

/-- The norms are kept when two columns that are not done are exchanged. -/
theorem KeepsNorms.exchange (h : KeepsNorms e k) (hj : k ≤ j.val) (hp : k ≤ p.val) :
    KeepsNorms (e.exchange j p) k := by
  intro l hl
  rw [rdiag_exchange, remainder_exchange]
  exact h _ (le_swap hj hp hl)

/-- After the exchange no column has more left than the pivot column. -/
theorem KeepsNorms.remainder_le (h : KeepsNorms e j) {l : Fin n} (hl : j ≤ l) :
    remainder (e.exchange j (e.pivotColumn j)) j l l ≤
      remainder (e.exchange j (e.pivotColumn j)) j j j := by
  have hp : j.val ≤ (e.pivotColumn j).val := le_pivotColumn e j
  have hswap : j.val ≤ (Equiv.swap j (e.pivotColumn j) l).val := le_swap le_rfl hp hl
  have hle := rdiag_le_pivotColumn e j hswap
  rw [h _ hswap, h _ hp] at hle
  rw [remainder_exchange, remainder_exchange, Equiv.swap_apply_left]
  exact (Real.sqrt_le_sqrt_iff (remainder_nonneg e j _)).1 hle

end Exchange

/-! ### Lockstep -/

/-- Two eliminations with the same order, of which the same is left after `k` steps. -/
structure Lockstep (e : Elimination ℝ m n) (e' : Elimination ℝ m' n) (k : Nat) : Prop where
  order_eq : e.order = e'.order
  norms : KeepsNorms e k
  norms' : KeepsNorms e' k
  remainder_eq (l l' : Fin n) : k ≤ l.val → k ≤ l'.val → remainder e k l l' = remainder e' k l l'
  rdiag_sq (l : Fin n) : l.val < k → e.rdiag l ^ 2 = e'.rdiag l ^ 2

section Steps

variable {e : Elimination ℝ m n} {e' : Elimination ℝ m' n}

/-- Eliminations in lockstep have the same pivot. -/
theorem Lockstep.pivotColumn_eq {j : Fin n} (h : Lockstep e e' j) :
    e.pivotColumn j = e'.pivotColumn j :=
  pivotColumn_congr fun l hl => by rw [h.norms l hl, h.norms' l hl, h.remainder_eq l l hl hl]

/-- Two eliminations stay in lockstep when both exchange the same columns. -/
theorem Lockstep.exchange {k : Nat} (h : Lockstep e e' k) {j p : Fin n} (hj : k ≤ j.val)
    (hp : k ≤ p.val) : Lockstep (e.exchange j p) (e'.exchange j p) k where
  order_eq := congrArg (fun v => Vec.swap v j p) h.order_eq
  norms := h.norms.exchange hj hp
  norms' := h.norms'.exchange hj hp
  remainder_eq l l' hl hl' := by
    rw [remainder_exchange, remainder_exchange]
    exact h.remainder_eq _ _ (le_swap hj hp hl) (le_swap hj hp hl')
  rdiag_sq l hl := by
    have hlj : l ≠ j := Fin.ne_of_val_ne (by omega)
    have hlp : l ≠ p := Fin.ne_of_val_ne (by omega)
    rw [rdiag_exchange, rdiag_exchange, Equiv.swap_apply_of_ne_of_ne hlj hlp]
    exact h.rdiag_sq l hl

variable {i : Fin m} {i' : Fin m'} {j : Fin n}

/-- Eliminating the pivot column in both keeps them in lockstep. -/
theorem Lockstep.reduce (h : Lockstep e e' j) (hij : i.val = j.val) (hij' : i'.val = j.val)
    (hmax : ∀ l, j ≤ l → remainder e j l l ≤ remainder e j j j) :
    Lockstep (e.reduce (Numerics.exact ε τ z) true i j)
      (e'.reduce (Numerics.exact ε τ z) true i' j) (j + 1) := by
  have hmax' : ∀ l, j ≤ l → remainder e' j l l ≤ remainder e' j j j := by
    intro l hl
    rw [← h.remainder_eq l l hl hl, ← h.remainder_eq j j le_rfl le_rfl]
    exact hmax l hl
  have hnorms := h.norms
  have hnorms' := h.norms'
  rw [← hij] at hmax hnorms
  rw [← hij'] at hmax' hnorms'
  have hkeeps := hnorms.reduce (ε := ε) (τ := τ) (z := z) hij hmax
  have hkeeps' := hnorms'.reduce (ε := ε) (τ := τ) (z := z) hij' hmax'
  rw [hij] at hkeeps
  rw [hij'] at hkeeps'
  refine ⟨?_, hkeeps, hkeeps', ?_, ?_⟩
  · rw [reduce_order, reduce_order]
    exact h.order_eq
  · intro l l' hl hl'
    -- both Schur complements are those of the same scalar products
    have hjl : j < l := hl
    have hjl' : j < l' := hl'
    have hleft := remainder_reduce (ε := ε) (τ := τ) (z := z) e hmax hjl hjl'
    have hright := remainder_reduce (ε := ε) (τ := τ) (z := z) e' hmax' hjl hjl'
    rw [hij] at hleft
    rw [hij'] at hright
    rw [hleft, hright, h.remainder_eq l l' hjl.le hjl'.le, h.remainder_eq j l le_rfl hjl.le,
      h.remainder_eq j l' le_rfl hjl'.le, h.remainder_eq j j le_rfl le_rfl]
  · intro l hl
    obtain hlt | heq := Nat.lt_succ_iff_lt_or_eq.1 hl
    · rw [reduce_rdiag_of_lt ε τ z true e hlt, reduce_rdiag_of_lt ε τ z true e' hlt]
      exact h.rdiag_sq l hlt
    · obtain rfl : l = j := Fin.ext heq
      rw [rdiag_reduce_sq, rdiag_reduce_sq, hij, hij']
      exact h.remainder_eq l l le_rfl le_rfl

/-- A step in both keeps them in lockstep. -/
theorem Lockstep.step (h : Lockstep e e' j) (hij : i.val = j.val) (hij' : i'.val = j.val) :
    Lockstep (e.step (Numerics.exact ε τ z) true i j) (e'.step (Numerics.exact ε τ z) true i' j)
      (j + 1) := by
  have hp : j.val ≤ (e.pivotColumn j).val := le_pivotColumn e j
  rw [Elimination.step, Elimination.step, if_pos rfl, if_pos rfl, ← h.pivotColumn_eq]
  exact (h.exchange le_rfl hp).reduce hij hij' fun l hl => h.norms.remainder_le hl

/-- Matrices whose columns have the same scalar products start in lockstep. -/
theorem lockstep_start {a : Mat ℝ m n} {b : Mat ℝ m' n}
    (h : a.toMatrixᵀ * a.toMatrix = b.toMatrixᵀ * b.toMatrix) :
    Lockstep (start (Numerics.exact ε τ z) a) (start (Numerics.exact ε τ z) b) 0 := by
  -- before the first step all of the columns is left, and their norms are computed
  have hkeeps : ∀ {r : Nat} (c : Mat ℝ r n), KeepsNorms (start (Numerics.exact ε τ z) c) 0 := by
    intro r c l _
    rw [remainder, tailDot_self, start, Vec.of_apply, Numerics.vecNorm_exact]
    simp only [tailSq, Nat.zero_le, if_true]
  have hremainder : ∀ {r : Nat} (c : Mat ℝ r n) (l l' : Fin n),
      remainder (start (Numerics.exact ε τ z) c) 0 l l' =
        (c.toMatrixᵀ * c.toMatrix) l l' := by
    intro r c l l'
    rw [remainder, tailDot, Matrix.mul_apply]
    simp only [Nat.zero_le, if_true]
    rfl
  refine ⟨rfl, hkeeps a, hkeeps b, ?_, fun l hl => absurd hl (Nat.not_lt_zero _)⟩
  intro l l' _ _
  rw [hremainder, hremainder, h]

/-- After any number of steps they are in lockstep. -/
theorem lockstep_after {a : Mat ℝ m n} {b : Mat ℝ m' n}
    (h : a.toMatrixᵀ * a.toMatrix = b.toMatrixᵀ * b.toMatrix) {k : Nat} (hm : k ≤ m) (hm' : k ≤ m')
    (hn : k ≤ n) :
    Lockstep (after (Numerics.exact ε τ z) true a k) (after (Numerics.exact ε τ z) true b k) k := by
  induction k with
  | zero => exact lockstep_start h
  | succ k ih =>
    have hk := ih (Nat.le_of_succ_le hm) (Nat.le_of_succ_le hm') (Nat.le_of_succ_le hn)
    rw [after, after, dif_pos ⟨hm, hn⟩, dif_pos ⟨hm', hn⟩]
    exact hk.step (j := ⟨k, hn⟩) rfl rfl

end Steps

end Elimination

namespace QR

variable (ε τ : ℝ) (z : Bool)

/-- Matrices whose columns have the same scalar products are factored with the same order and the
same diagonal but for signs. -/
theorem factor_lockstep {a : Mat ℝ m n} {b : Mat ℝ m' n} (hm : n ≤ m) (hm' : n ≤ m')
    (h : a.toMatrixᵀ * a.toMatrix = b.toMatrixᵀ * b.toMatrix) :
    (factor (Numerics.exact ε τ z) true a).order = (factor (Numerics.exact ε τ z) true b).order ∧
      ∀ l, (factor (Numerics.exact ε τ z) true a).rdiag l ^ 2 =
        (factor (Numerics.exact ε τ z) true b).rdiag l ^ 2 := by
  have hafter := Elimination.lockstep_after (ε := ε) (τ := τ) (z := z) h hm hm' le_rfl
  rw [factor, factor, min_eq_right hm, min_eq_right hm']
  exact ⟨hafter.order_eq, fun l => hafter.rdiag_sq l l.isLt⟩

end QR

end NonlinearSolve

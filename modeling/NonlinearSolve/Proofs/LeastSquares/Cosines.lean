import Mathlib.Algebra.Order.Chebyshev
import NonlinearSolve.Proofs.LeastSquares.Interruption
import NonlinearSolve.Proofs.LeastSquares.Lockstep
import NonlinearSolve.Proofs.LeastSquares.Scaling

/-! # The test for orthogonality

When a minimization has linearized, it tests the largest cosine of the angle between the residuals
and a column of the Jacobian. It is computed from the triangular factor, whatever the order of its
columns is, and in exact arithmetic it is the largest one of the columns that are not zero
(`isLargestCosine_gradientCosine`). So the test ends the solve exactly if all of these columns have
cosines within the tolerance (`testsCosines_adapt`), at every linearization that is completed
(`testsLargestCosine_run`). -/

namespace NonlinearSolve

open Matrix Scalar

variable {σ : Type} {m r n : Nat} {ε τ : ℝ} {z : Bool}

/-! ### Cosines -/

/-- The absolute value of the cosine of the angle between the column `j` and the vector `f`. -/
noncomputable def columnCosine (a : Mat ℝ m n) (f : Vec ℝ m) (j : Fin n) : ℝ :=
  |∑ i, a i j * f i| / (√(∑ i, a i j ^ 2) * √(∑ i, f i ^ 2))

/-- The number `g` is the largest cosine of the columns that are not zero, or zero if there are none
of these. -/
def IsLargestCosine (a : Mat ℝ m n) (f : Vec ℝ m) (g : ℝ) : Prop :=
  IsGreatest {y | ∃ j, (∃ i, a i j ≠ 0) ∧ columnCosine a f j = y} g ∨
    (∀ i j, a i j = 0) ∧ g = 0

section Cosines

variable (a : Mat ℝ m n) (f : Vec ℝ m)

/-- A cosine is a ratio of magnitudes, so it is not negative. -/
theorem columnCosine_nonneg (j : Fin n) : 0 ≤ columnCosine a f j :=
  div_nonneg (abs_nonneg _) (mul_nonneg (Real.sqrt_nonneg _) (Real.sqrt_nonneg _))

/-- The scalar product is at most the product of the norms. -/
theorem columnCosine_le_one (j : Fin n) : columnCosine a f j ≤ 1 := by
  refine div_le_one_of_le₀ ?_ (mul_nonneg (Real.sqrt_nonneg _) (Real.sqrt_nonneg _))
  rw [← Real.sqrt_mul (Finset.sum_nonneg fun i _ => sq_nonneg _)]
  exact Real.abs_le_sqrt (Finset.sum_mul_sq_le_sq_mul_sq _ _ _)

/-- A column that is proportional to the vector has the cosine one. -/
theorem columnCosine_of_eq_mul {j : Fin n} (hj : ∃ i, a i j ≠ 0) {b : ℝ} (hb : b ≠ 0)
    (hf : ∀ i, f i = b * a i j) : columnCosine a f j = 1 := by
  have hpos : 0 < ∑ i, a i j ^ 2 := by
    obtain ⟨i, hi⟩ := hj
    exact Finset.sum_pos' (fun i _ => sq_nonneg _) ⟨i, Finset.mem_univ i, sq_pos_of_ne_zero hi⟩
  have hproduct : ∑ i, a i j * f i = b * ∑ i, a i j ^ 2 := by
    rw [Finset.mul_sum]
    refine Finset.sum_congr rfl fun i _ => ?_
    rw [hf]
    ring
  have hsquares : ∑ i, f i ^ 2 = b ^ 2 * ∑ i, a i j ^ 2 := by
    rw [Finset.mul_sum]
    refine Finset.sum_congr rfl fun i _ => ?_
    rw [hf, mul_pow]
  rw [columnCosine, hproduct, hsquares, Real.sqrt_mul (sq_nonneg b), Real.sqrt_sq_eq_abs, abs_mul,
    abs_of_pos hpos, mul_left_comm, Real.mul_self_sqrt hpos.le]
  exact div_self (mul_ne_zero (abs_ne_zero.2 hb) hpos.ne')

/-- Only zero columns have the norm zero. -/
theorem colNorm_eq_zero_iff (j : Fin n) : colNorm a j = 0 ↔ ∀ i, a i j = 0 := by
  rw [colNorm, Real.sqrt_eq_zero (Finset.sum_nonneg fun i _ => sq_nonneg _),
    Finset.sum_eq_zero_iff_of_nonneg fun i _ => sq_nonneg _]
  simp only [Finset.mem_univ, true_imp_iff, pow_eq_zero_iff two_ne_zero]

variable {a f} {g : ℝ}

/-- The largest cosine lies between zero and one. -/
theorem IsLargestCosine.mem_Icc (h : IsLargestCosine a f g) : g ∈ Set.Icc 0 1 := by
  obtain ⟨⟨j, -, rfl⟩, -⟩ | ⟨-, rfl⟩ := h
  · exact ⟨columnCosine_nonneg a f j, columnCosine_le_one a f j⟩
  · exact ⟨le_rfl, zero_le_one⟩

/-- The largest cosine is within a tolerance if all cosines are. -/
theorem IsLargestCosine.le_iff (h : IsLargestCosine a f g) {tol : ℝ} (htol : 0 ≤ tol) :
    g ≤ tol ↔ ∀ j, (∃ i, a i j ≠ 0) → columnCosine a f j ≤ tol := by
  obtain ⟨⟨j, hj, hattained⟩, hupper⟩ | ⟨hzero, rfl⟩ := h
  · constructor
    · exact fun hle l hl => (hupper ⟨l, hl, rfl⟩).trans hle
    · exact fun hall => hattained ▸ hall j hj
  · exact iff_of_true htol fun j ⟨i, hi⟩ => absurd (hzero i j) hi

end Cosines

namespace LeastSquares

/-! ### The adaptation to a Jacobian -/

/-- With the factors and the column norms of a Jacobian, the largest of its cosines is computed. -/
theorem isLargestCosine_gradientCosine {h : n ≤ r} {st : State ℝ m r n} {a : Mat ℝ m n}
    {f : Vec ℝ m} (hst : st.Factors h a f) {norms : Vec ℝ n} (hnorms : ∀ j, norms j = colNorm a j)
    (hres : st.residualNorm = (Numerics.exact ε τ z).vecNorm f) (hne : f ≠ Vec.zero m) :
    IsLargestCosine a f (st.gradientCosine h norms) := by
  have hnorm : st.residualNorm = √(∑ i, f i ^ 2) := by rw [hres, Numerics.vecNorm_exact]
  have hpos : st.residualNorm ≠ 0 := by
    rw [hres]
    exact mt (Numerics.vecNorm_exact_eq_zero f).1 hne
  obtain ⟨-, hupper, hattained⟩ := isCosine_gradientCosine st hst norms hpos
  have hcosine : ∀ j, |(NormalEquations.ofProblem a.toMatrix f.get).rhs j / st.residualNorm /
      norms j| = columnCosine a f j := by
    intro j
    rw [div_div, abs_div, mul_comm, abs_of_nonneg (a := norms j * st.residualNorm), hnorms, hnorm]
    · rfl
    · rw [hnorms, hnorm]
      exact mul_nonneg (Real.sqrt_nonneg _) (Real.sqrt_nonneg _)
  have hcolumn : ∀ j, norms j ≠ 0 ↔ ∃ i, a i j ≠ 0 := by
    intro j
    rw [hnorms, ne_eq, colNorm_eq_zero_iff, not_forall]
  by_cases hall : ∀ i j, a i j = 0
  · refine Or.inr ⟨hall, hattained.resolve_right ?_⟩
    rintro ⟨j, hj, -⟩
    obtain ⟨i, hi⟩ := (hcolumn j).1 hj
    exact hi (hall i j)
  · left
    constructor
    · obtain hzero | ⟨j, hj, heq⟩ := hattained
      · -- a largest cosine of zero is that of every column that is not zero
        simp only [not_forall] at hall
        obtain ⟨i, j, hij⟩ := hall
        have hle := hupper j ((hcolumn j).2 ⟨i, hij⟩)
        rw [hcosine, hzero] at hle
        rw [hzero]
        exact ⟨j, ⟨i, hij⟩, le_antisymm hle (columnCosine_nonneg a f j)⟩
      · exact ⟨j, (hcolumn j).1 hj, ((hcosine j).symm.trans heq.symm)⟩
    · rintro y ⟨j, hj, rfl⟩
      rw [← hcosine]
      exact hupper j ((hcolumn j).2 hj)

/-- A test of the cosines of the Jacobian `a` with the residuals `f`: it finds the largest cosine,
and it ends the solve exactly if the cosines of all columns that are not zero are within the
tolerance. -/
structure TestsCosines (c : Config ℝ) (a : Mat ℝ m n) (f : Vec ℝ m) (cosine : ℝ) (ends : Prop) :
    Prop where
  largest : IsLargestCosine a f cosine
  mem_Icc : cosine ∈ Set.Icc 0 1
  ends_iff : ends ↔ ∀ j, (∃ i, a i j ≠ 0) → columnCosine a f j ≤ c.gtol

/-- How the end of the solve is put does not matter to the test of the cosines. -/
theorem TestsCosines.congr {c : Config ℝ} {a : Mat ℝ m n} {f : Vec ℝ m} {cosine : ℝ}
    {ends ends' : Prop} (h : TestsCosines c a f cosine ends) (hends : ends' ↔ ends) :
    TestsCosines c a f cosine ends' :=
  ⟨h.largest, h.mem_Icc, hends.trans h.ends_iff⟩

/-- After the adaptation to a Jacobian the solve goes on, or it ends because the Jacobian and the
residuals are orthogonal. -/
theorem adapt_fst (nm : Numerics ℝ) (c : Config ℝ) (h : n ≤ r) (st : State ℝ m r n)
    (norms : Vec ℝ n) :
    (st.adapt nm c h norms).1 = none ∨ (st.adapt nm c h norms).1 = some .orthogonal := by
  rw [adapt_of_calibrate nm c h norms rfl]
  split
  · exact .inr rfl
  · exact .inl rfl

/-- The adaptation to a Jacobian tests its cosines. -/
theorem testsCosines_adapt {c : Config ℝ} (hgtol : 0 ≤ c.gtol) {h : n ≤ r} {st : State ℝ m r n}
    {a : Mat ℝ m n} {f : Vec ℝ m} (hst : st.Factors h a f) {norms : Vec ℝ n}
    (hnorms : ∀ j, norms j = colNorm a j)
    (hres : st.residualNorm = (Numerics.exact ε τ z).vecNorm f) (hne : f ≠ Vec.zero m) :
    TestsCosines c a f (st.adapt (Numerics.exact ε τ z) c h norms).2.cosine
      ((st.adapt (Numerics.exact ε τ z) c h norms).1 = some .orthogonal) := by
  rw [adapt_of_calibrate (Numerics.exact ε τ z) c h norms rfl]
  -- the calibration changes neither the factors nor the norm of the residuals
  set st₁ : State ℝ m r n := { st with
    toIterate := st.toIterate.calibrate (Numerics.exact ε τ z) c.toSettings norms }
  have hfactors : st₁.Factors h a f := hst
  have hres₁ : st₁.residualNorm = (Numerics.exact ε τ z).vecNorm f :=
    (congrArg Position.residualNorm
      (st.toIterate.position_calibrate (Numerics.exact ε τ z) c.toSettings norms)).trans hres
  have hlargest := isLargestCosine_gradientCosine hfactors hnorms hres₁ hne
  by_cases hwithin : st₁.gradientCosine h norms ≤ c.gtol
  · rw [if_pos hwithin]
    exact ⟨hlargest, hlargest.mem_Icc, iff_of_true rfl ((hlargest.le_iff hgtol).1 hwithin)⟩
  · rw [if_neg hwithin]
    exact ⟨hlargest, hlargest.mem_Icc,
      iff_of_false (fun h => by cases h) (mt (hlargest.le_iff hgtol).2 hwithin)⟩

/-- The adaptation after a linearization tests the cosines of its Jacobian. -/
theorem testsCosines_linearize {c : Config ℝ} (hgtol : 0 ≤ c.gtol) {h : n ≤ r}
    {linearize : Linearize σ ℝ m r n} (hl : linearize.Recounts) {jac : Jacobian σ ℝ m r n}
    (hf : linearize.Factors h jac) (hm : linearize.Measures jac) {st : State ℝ m r n} {s : σ}
    (hres : st.residualNorm = (Numerics.exact ε τ z).vecNorm st.residuals)
    (hne : st.residuals ≠ Vec.zero m) {norms : Vec ℝ n} (hok : (linearize st s).1 = .ok norms)
    {a : Mat ℝ m n} (hjac : jac st s = .ok a) :
    TestsCosines c a st.residuals
      ((linearize st s).2.1.adapt (Numerics.exact ε τ z) c h norms).2.cosine
      (((linearize st s).2.1.adapt (Numerics.exact ε τ z) c h norms).1 = some .orthogonal) := by
  obtain ⟨b, hb, hfactors⟩ := hf st s norms hok
  obtain rfl : a = b := Except.ok.inj (hjac.symm.trans hb)
  obtain ⟨b', hb', hnorms⟩ := hm st s norms hok
  obtain rfl : a = b' := Except.ok.inj (hjac.symm.trans hb')
  have hnorm : (linearize st s).2.1.residualNorm = st.residualNorm :=
    congrArg Position.residualNorm (hl st s).position_eq
  exact testsCosines_adapt hgtol hfactors hnorms (hnorm.trans hres) hne

/-! ### Solves -/

/-- The move after a completed linearization tests the cosines of its Jacobian. -/
theorem testsCosines_next {c : Config ℝ} (hgtol : 0 ≤ c.gtol) (budget : Nat) {h : n ≤ r}
    {p : Problem σ ℝ m n} {linearize : Linearize σ ℝ m r n} (hl : linearize.Recounts)
    {jac : Jacobian σ ℝ m r n} (hf : linearize.Factors h jac) (hm : linearize.Measures jac)
    (accepts : Acceptance (State ℝ m r n) ℝ m n) {mo : Moment σ ℝ n (State ℝ m r n)}
    (hcomp : mo.attempt (attempt c.toSettings p linearize) = .completed) :
    let mo' := (method (Numerics.exact ε τ z) c budget h p linearize).next accepts p mo
    ∃ a, jacobianAt? c.toSettings p jac mo = some a ∧
      (mo.state.residualNorm = (Numerics.exact ε τ z).vecNorm mo.state.residuals →
        mo.state.residuals ≠ Vec.zero m →
        TestsCosines c a mo.state.residuals mo'.state.cosine (mo'.stage = .ended .orthogonal)) := by
  obtain ⟨s, norms, hready, hs, hok, hnext⟩ :=
    next_of_completed (Numerics.exact ε τ z) budget h accepts hcomp
  obtain ⟨a, hjac, -⟩ := hf mo.state s norms hok
  refine ⟨a, jacobianAt?_of_ready hready hs hjac, ?_⟩
  intro hres hne
  have htests := testsCosines_linearize hgtol hl hf hm hres hne hok hjac
  rw [hnext]
  exact htests.congr Stage.ofPreparation_eq_ended_iff

/-- Every linearization of a solve that is completed tests the cosines of its Jacobian, and the
solve ends with it exactly if they are all within the tolerance. -/
def TestsLargestCosine (course : Nat → Moment σ ℝ n (State ℝ m r n))
    (attempts : Moment σ ℝ n (State ℝ m r n) → Attempt)
    (jacobian? : Moment σ ℝ n (State ℝ m r n) → Option (Mat ℝ m n)) (c : Config ℝ)
    (rep : Report ℝ m r n) : Prop :=
  ∀ k, attempts (course k) = .completed → ∃ a, jacobian? (course k) = some a ∧
    ((course k).state.residuals ≠ Vec.zero m →
      TestsCosines c a (course k).state.residuals (course (k + 1)).state.cosine
        ((course (k + 1)).stage = .ended .orthogonal ∧ rep.termination = .orthogonal))

section Run

variable {c : Config ℝ} {patience : Nat} {p : Problem σ ℝ m n} {rows : n ≤ m → n ≤ r}
  {linearize : n ≤ m → Linearize σ ℝ m r n} {jac : Jacobian σ ℝ m r n} {x : Vec ℝ n} {s : σ}

/-- The move after a completed linearization of a solve tests the cosines of its Jacobian, and
either ends the solve or begins a step. -/
theorem testsCosines_course (hl : ∀ h, (linearize h).Recounts) (h : n ≤ m)
    (hf : (linearize h).Factors (rows h) jac) (hm : (linearize h).Measures jac) {k : Nat}
    (hk : attempts c p linearize
      (course (Numerics.exact ε τ z) c patience p rows linearize x s k) = .completed) :
    let mo := course (Numerics.exact ε τ z) c patience p rows linearize x s
    ∃ a, jacobianAt? c.toSettings p jac (mo k) = some a ∧
      ((mo k).state.residuals ≠ Vec.zero m →
        TestsCosines c a (mo k).state.residuals (mo (k + 1)).state.cosine
          ((mo (k + 1)).stage = .ended .orthogonal)) ∧
      ((mo (k + 1)).stage = .prepared ∨ (mo (k + 1)).stage = .ended .orthogonal) := by
  obtain ⟨_, hc, hattempts⟩ := proper_of_attempts (by rw [hk]; exact fun h => by cases h)
  rw [hattempts, course_eq h hc] at hk
  rw [course_eq h hc]
  set nm := Numerics.exact ε τ z
  set me := method nm c (c.budget patience n) (rows h) p (linearize h)
  intro mo
  -- at a moment before a linearization the solve has not ended
  have hgoes : ∀ reason, (mo k).stage ≠ .ended reason := by
    intro reason hended
    rw [Moment.attempt, hended] at hk
    cases hk
  have hres : (mo k).state.residualNorm = nm.vecNorm (mo k).state.residuals :=
    (steady_method (hl h)).residualNorm_course k hgoes
  have hsucc : mo (k + 1) = me.next (accepts nm (rows h)) p (mo k) := Method.course_succ k
  obtain ⟨a, hjac, htests⟩ := testsCosines_next (ε := ε) (τ := τ) (z := z)
    (Config.gtol_nonneg hc) (c.budget patience n) (hl h) hf hm (accepts nm (rows h)) hk
  obtain ⟨s', norms, -, -, -, hnext⟩ :=
    next_of_completed nm (c.budget patience n) (rows h) (accepts nm (rows h)) hk
  refine ⟨a, hjac, fun hne => hsucc ▸ htests hres hne, ?_⟩
  rw [hsucc, hnext]
  exact (adapt_fst nm c (rows h) _ norms).imp (congrArg Stage.ofPreparation)
    (congrArg Stage.ofPreparation)

variable (rows) in
/-- Every solve tests the largest cosine. -/
theorem testsLargestCosine_run (hl : ∀ h, (linearize h).Recounts) (hpat : 0 < patience) (h : n ≤ m)
    (hf : (linearize h).Factors (rows h) jac) (hm : (linearize h).Measures jac) :
    TestsLargestCosine (course (Numerics.exact ε τ z) c patience p rows linearize x s)
      (attempts c p linearize) (jacobianAt? c.toSettings p jac) c
      (run (Numerics.exact ε τ z) c patience p rows linearize x s).1 := by
  intro k hk
  obtain ⟨a, hjac, htests, -⟩ := testsCosines_course hl h hf hm hk
  obtain ⟨_, hc, -⟩ := proper_of_attempts (by rw [hk]; exact fun h => by cases h)
  obtain ⟨k₀, hend⟩ := exists_course_report (Numerics.exact ε τ z) c p rows x s hl hpat
  refine ⟨a, hjac, fun hne => (htests hne).congr (and_iff_left_of_imp ?_)⟩
  -- a solve that ends at the test reports that it does
  intro hended
  have hlast := (hend (k + 1 + k₀) (Nat.le_add_left _ _)).1
  rw [course_eq h hc] at hended hlast
  rw [Method.course_eq_of_stage (Nat.le_add_right _ _) hended, hended] at hlast
  exact (Stage.ended.inj hlast).symm

/-- A linearization that is completed is followed by a step if one of the cosines is not within the
tolerance. -/
theorem prepared_of_lt_columnCosine (hl : ∀ h, (linearize h).Recounts) (h : n ≤ m)
    (hf : (linearize h).Factors (rows h) jac) (hm : (linearize h).Measures jac) {k : Nat}
    (hk : attempts c p linearize
      (course (Numerics.exact ε τ z) c patience p rows linearize x s k) = .completed)
    {f : Vec ℝ m} (hf₀ : (course (Numerics.exact ε τ z) c patience p rows linearize x s k
      ).state.residuals = f) (hne : f ≠ Vec.zero m) {b : Mat ℝ m n}
    (hconst : ∀ st s, jac st s = .ok b) {j : Fin n} (hj : ∃ i, b i j ≠ 0)
    (hcosine : c.gtol < columnCosine b f j) :
    (course (Numerics.exact ε τ z) c patience p rows linearize x s (k + 1)).stage =
      .prepared := by
  subst hf₀
  obtain ⟨a, hjac, htests, hgoes⟩ := testsCosines_course hl h hf hm hk
  obtain rfl := eq_of_jacobianAt? _ hconst hjac
  refine hgoes.resolve_right fun hended => ?_
  exact absurd ((htests hne).ends_iff.1 hended j hj) (not_le.2 hcosine)

end Run

end LeastSquares

end NonlinearSolve

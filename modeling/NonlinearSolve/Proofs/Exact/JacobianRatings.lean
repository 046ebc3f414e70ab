import Mathlib.Analysis.SpecialFunctions.Log.Basic
import NonlinearSolve.JacobianCheck
import NonlinearSolve.Proofs.Course.Calls
import NonlinearSolve.Proofs.Exact.Arithmetic

/-! # What the rating of a Jacobian measures

In exact arithmetic a rating falls from one to zero as the error of the prediction grows
(`JacobianCheck.rate_antitone`), with a logarithmic part between the two constant ones. The error is
the discrepancy between the change of a residual and the change that the Jacobian predicts
(`JacobianCheck.discrepancy`), in units of the residual. The nearby point is displaced as the
prediction assumes (`JacobianCheck.perturbedPoint_apply`), so an affine residual with its own
Jacobian has no discrepancy. `JacobianCheck.ratings_measure_discrepancy` puts this together. -/

namespace NonlinearSolve

open Scalar

variable {σ : Type} {m n : Nat}

/-! ### Affine residuals -/

/-- The affine function with the matrix `a` and the value `b` at zero. -/
noncomputable def affine (a : Mat ℝ m n) (b : Vec ℝ m) (x : Vec ℝ n) : Vec ℝ m :=
  Vec.of fun i => ∑ j, a i j * x j + b i

/-- A problem with affine residuals and their exact Jacobian. Any call may abort. -/
structure JacobianProblem.IsAffine (p : JacobianProblem σ ℝ m n) (a : Mat ℝ m n) (b : Vec ℝ m) :
    Prop where
  residuals : p.Computes (affine a b)
  jacobian (x : Vec ℝ n) (s : σ) (jac : Mat ℝ m n) (s' : σ) :
    p.jacobian x s = (.ok jac, s') → jac = a

namespace JacobianCheck

variable {nm : Numerics ℝ}

/-! ### The displacement -/

/-- The displacement of an unknown, in units of the relative displacement. -/
noncomputable def weight (x : ℝ) : ℝ := if x = 0 then 1 else |x|

/-- The predicted change is the Jacobian times the weights of the unknowns. -/
theorem predicted_eq (x : Vec ℝ n) (fjac : Mat ℝ m n) (i : Fin m) :
    predicted x fjac i = ∑ j, weight (x j) * fjac i j := by
  rw [predicted, Exact.sum_eq]
  refine Finset.sum_congr rfl ?_
  intro j _
  rw [weight]
  simp only [Exact.beq_iff, Exact.mag_eq]

/-- The nearby point is displaced by the weights, also where an unknown is zero. -/
theorem perturbedPoint_apply (hpos : 0 < nm.epsilon) (x : Vec ℝ n) (j : Fin n) :
    perturbedPoint nm x j = x j + √nm.epsilon * weight (x j) := by
  have hstep : √nm.epsilon ≠ 0 := (Real.sqrt_pos.2 hpos).ne'
  rw [perturbedPoint, Vec.map_apply, weight]
  simp only [Exact.beq_iff, Exact.mag_eq, step, Exact.sqrt_eq, mul_eq_zero, hstep, false_or,
    abs_eq_zero]
  by_cases hx : x j = 0
  · rw [if_pos hx, if_pos hx, mul_one]
  · rw [if_neg hx, if_neg hx]

/-- An affine residual changes by what its own Jacobian predicts. -/
theorem affine_perturbedPoint (hpos : 0 < nm.epsilon) (a : Mat ℝ m n) (b : Vec ℝ m) (x : Vec ℝ n)
    (i : Fin m) :
    affine a b (perturbedPoint nm x) i - affine a b x i =
      √nm.epsilon * ∑ j, weight (x j) * a i j := by
  have hterm (j : Fin n) : a i j * perturbedPoint nm x j =
      a i j * x j + √nm.epsilon * (weight (x j) * a i j) := by
    rw [perturbedPoint_apply hpos]
    ring
  rw [affine, affine, Vec.of_apply, Vec.of_apply, Finset.sum_congr rfl fun j _ => hterm j,
    Finset.sum_add_distrib, Finset.mul_sum]
  ring

/-! ### Rates -/

section Rate

variable (hpos : 0 < nm.epsilon) (hlt : nm.epsilon < 1)

include hpos hlt

/-- The precision of the arithmetic is below the precision of a difference. -/
theorem epsilon_lt_sqrt : nm.epsilon < √nm.epsilon := by
  rw [Real.lt_sqrt hpos.le, sq]
  exact mul_lt_of_lt_one_left hpos hlt

omit hpos in
/-- The relative displacement is less than one. -/
theorem sqrt_lt_one : √nm.epsilon < 1 := by
  rw [Real.sqrt_lt' one_pos, one_pow]
  exact hlt

/-- The logarithm that scales the rating is negative. -/
theorem log_sqrt_neg : Real.log √nm.epsilon < 0 :=
  Real.log_neg (Real.sqrt_pos.2 hpos) (sqrt_lt_one hlt)

/-- The base of the logarithm does not matter to a rate. -/
theorem rate_eq (e : ℝ) :
    rate nm e = if √nm.epsilon ≤ e then 0
      else if nm.epsilon < e then Real.log e / Real.log √nm.epsilon - 1 else 1 := by
  have hbase : (log10e : ℝ) ≠ 0 := by
    change (0.4342944819032518 : ℝ) ≠ 0
    norm_num
  have hlog : Real.log √nm.epsilon ≠ 0 := (log_sqrt_neg hpos hlt).ne
  have hmiddle : (log10e * Real.log e - log10e * Real.log √nm.epsilon) /
      (log10e * Real.log √nm.epsilon) = Real.log e / Real.log √nm.epsilon - 1 := by
    rw [← mul_sub, mul_div_mul_left _ _ hbase, sub_div, div_self hlog]
  rw [rate]
  change (if √nm.epsilon ≤ e then 0 else if nm.epsilon < e ∧ e < √nm.epsilon then
    (log10e * Real.log e - log10e * Real.log √nm.epsilon) / (log10e * Real.log √nm.epsilon)
    else 1) = _
  by_cases hlarge : √nm.epsilon ≤ e
  · rw [if_pos hlarge, if_pos hlarge]
  · rw [if_neg hlarge, if_neg hlarge, hmiddle]
    simp only [not_le.1 hlarge, and_true]

/-- An error of at most the precision is rated one. -/
theorem rate_of_le {e : ℝ} (he : e ≤ nm.epsilon) : rate nm e = 1 := by
  rw [rate_eq hpos hlt, if_neg (not_le.2 (he.trans_lt (epsilon_lt_sqrt hpos hlt))),
    if_neg (not_lt.2 he)]

/-- Between the thresholds the logarithm is between that of the one and that of the other, which is
twice as large. -/
theorem rate_of_between {e : ℝ} (hlow : nm.epsilon < e) (hhigh : e < √nm.epsilon) :
    0 < rate nm e ∧ rate nm e < 1 := by
  have hlog := log_sqrt_neg hpos hlt
  have hbelow : Real.log e < Real.log √nm.epsilon := Real.log_lt_log (hpos.trans hlow) hhigh
  have habove : 2 * Real.log √nm.epsilon < Real.log e := by
    rw [Real.log_sqrt hpos.le, mul_div_cancel₀ _ two_ne_zero]
    exact Real.log_lt_log hpos hlow
  rw [rate_eq hpos hlt, if_neg (not_le.2 hhigh), if_pos hlow]
  constructor
  · rw [sub_pos, one_lt_div_of_neg hlog]
    exact hbelow
  · rw [sub_lt_iff_lt_add, div_lt_iff_of_neg hlog]
    linarith

/-- A rating lies between zero and one, whatever the error is. -/
theorem rate_mem_Icc (e : ℝ) : rate nm e ∈ Set.Icc 0 1 := by
  by_cases hlarge : √nm.epsilon ≤ e
  · rw [rate_eq hpos hlt, if_pos hlarge]
    exact ⟨le_rfl, zero_le_one⟩
  · by_cases hsmall : e ≤ nm.epsilon
    · rw [rate_of_le hpos hlt hsmall]
      exact ⟨zero_le_one, le_rfl⟩
    · obtain ⟨h₀, h₁⟩ := rate_of_between hpos hlt (not_le.1 hsmall) (not_le.1 hlarge)
      exact ⟨h₀.le, h₁.le⟩

/-- Only an error of the expected precision or more has the rate zero. -/
theorem rate_eq_zero_iff (e : ℝ) : rate nm e = 0 ↔ √nm.epsilon ≤ e := by
  constructor
  · intro hzero
    by_contra hlarge
    by_cases hsmall : e ≤ nm.epsilon
    · rw [rate_of_le hpos hlt hsmall] at hzero
      exact one_ne_zero hzero
    · exact (rate_of_between hpos hlt (not_le.1 hsmall) (not_le.1 hlarge)).1.ne' hzero
  · intro hlarge
    rw [rate_eq hpos hlt, if_pos hlarge]

/-- A larger error never has a better rate. -/
theorem rate_antitone : Antitone (rate nm) := by
  intro e₁ e₂ hle
  obtain ⟨hnonneg, -⟩ := rate_mem_Icc hpos hlt e₁
  obtain ⟨-, hone⟩ := rate_mem_Icc hpos hlt e₂
  by_cases hlarge : √nm.epsilon ≤ e₂
  · rw [(rate_eq_zero_iff hpos hlt e₂).2 hlarge]
    exact hnonneg
  · by_cases hsmall : e₁ ≤ nm.epsilon
    · rw [rate_of_le hpos hlt hsmall]
      exact hone
    · -- both errors are between the thresholds
      have he₁ : nm.epsilon < e₁ := not_le.1 hsmall
      have hlog : Real.log e₁ ≤ Real.log e₂ := Real.log_le_log (hpos.trans he₁) hle
      rw [rate_eq hpos hlt e₁, rate_eq hpos hlt e₂, if_neg hlarge,
        if_neg (mt (le_trans · hle) hlarge), if_pos he₁, if_pos (he₁.trans_le hle)]
      exact sub_le_sub_right
        ((div_le_div_right_of_neg (log_sqrt_neg hpos hlt)).2 hlog) 1

end Rate

/-! ### Discrepancies -/

/-- By how much the change of residual `i`, per unit of the relative displacement, differs from what
the Jacobian predicts. -/
noncomputable def discrepancy (nm : Numerics ℝ) (x : Vec ℝ n) (fvec : Vec ℝ m) (fjac : Mat ℝ m n)
    (fvecp : Vec ℝ m) (i : Fin m) : ℝ :=
  |(fvecp i - fvec i) / √nm.epsilon - ∑ j, weight (x j) * fjac i j|

/-- The values `f` and `fp` of a residual at the two points say something about its gradient: none
of them is zero, and the change is not lost in the precision of the arithmetic. -/
structure Conclusive (nm : Numerics ℝ) (f fp : ℝ) : Prop where
  base_ne_zero : f ≠ 0
  nearby_ne_zero : fp ≠ 0
  changes : 100 * nm.epsilon * |f| ≤ |fp - f|

section Ratings

variable {x : Vec ℝ n} {fvec : Vec ℝ m} {fjac : Mat ℝ m n} {fvecp : Vec ℝ m} {i : Fin m}

/-- The test of the relative error as a proposition. -/
theorem conclusive_iff (f fp : ℝ) :
    (!(f == 0) && !(fp == 0) && decide (100.0 * nm.epsilon * mag f ≤ mag (fp - f))) = true ↔
      Conclusive nm f fp := by
  have hhundred : (100.0 : ℝ) = 100 := by norm_num
  rw [Bool.and_eq_true, Bool.and_eq_true, Bool.not_eq_true', Bool.not_eq_true',
    Exact.beq_eq_false_iff, Exact.beq_eq_false_iff, decide_eq_true_iff, Exact.mag_eq, Exact.mag_eq,
    hhundred]
  exact ⟨fun ⟨⟨hf, hfp⟩, hchange⟩ => ⟨hf, hfp, hchange⟩, fun h => ⟨⟨h.1, h.2⟩, h.3⟩⟩

/-- If something can be said, the error is the discrepancy in units of the residual. -/
theorem ratings_of_conclusive (h : Conclusive nm (fvec i) (fvecp i)) :
    ratings nm x fvec fjac fvecp i =
      rate nm (√nm.epsilon * discrepancy nm x fvec fjac fvecp i / (|fvec i| + |fvecp i|)) := by
  rw [ratings, Vec.of_apply, relativeError, if_pos ((conclusive_iff _ _).2 h), predicted_eq]
  rfl

variable (hpos : 0 < nm.epsilon) (hlt : nm.epsilon < 1)

include hpos hlt

/-- If nothing can be said, the rating is zero. -/
theorem ratings_of_not_conclusive (h : ¬ Conclusive nm (fvec i) (fvecp i)) :
    ratings nm x fvec fjac fvecp i = 0 := by
  rw [ratings, Vec.of_apply, relativeError, if_neg (mt (conclusive_iff _ _).1 h),
    rate_eq_zero_iff hpos hlt]
  exact (sqrt_lt_one hlt).le

/-- A larger discrepancy never has a better rating. -/
theorem ratings_antitone {x' : Vec ℝ n} {fjac' : Mat ℝ m n}
    (hle : discrepancy nm x fvec fjac fvecp i ≤ discrepancy nm x' fvec fjac' fvecp i) :
    ratings nm x' fvec fjac' fvecp i ≤ ratings nm x fvec fjac fvecp i := by
  by_cases h : Conclusive nm (fvec i) (fvecp i)
  · rw [ratings_of_conclusive h, ratings_of_conclusive h]
    refine rate_antitone hpos hlt ?_
    gcongr
  · rw [ratings_of_not_conclusive hpos hlt h, ratings_of_not_conclusive hpos hlt h]

/-- The rating is zero exactly if the discrepancy is as large as the residual. -/
theorem ratings_eq_zero_iff (h : Conclusive nm (fvec i) (fvecp i)) :
    ratings nm x fvec fjac fvecp i = 0 ↔
      |fvec i| + |fvecp i| ≤ discrepancy nm x fvec fjac fvecp i := by
  have hstep : 0 < √nm.epsilon := Real.sqrt_pos.2 hpos
  have hsize : 0 < |fvec i| + |fvecp i| :=
    add_pos (abs_pos.2 h.base_ne_zero) (abs_pos.2 h.nearby_ne_zero)
  rw [ratings_of_conclusive h, rate_eq_zero_iff hpos hlt, le_div_iff₀ hsize,
    mul_le_mul_iff_right₀ hstep]

/-- Without a discrepancy the rating is one. -/
theorem ratings_eq_one (h : Conclusive nm (fvec i) (fvecp i))
    (hzero : discrepancy nm x fvec fjac fvecp i = 0) : ratings nm x fvec fjac fvecp i = 1 := by
  rw [ratings_of_conclusive h, hzero, mul_zero, zero_div]
  exact rate_of_le hpos hlt hpos.le

end Ratings

/-- An affine residual and its own Jacobian do not differ. -/
theorem discrepancy_affine (hpos : 0 < nm.epsilon) (a : Mat ℝ m n) (b : Vec ℝ m) (x : Vec ℝ n)
    (i : Fin m) :
    discrepancy nm x (affine a b x) a (affine a b (perturbedPoint nm x)) i = 0 := by
  have hstep : √nm.epsilon ≠ 0 := (Real.sqrt_pos.2 hpos).ne'
  rw [discrepancy, affine_perturbedPoint hpos, mul_div_cancel_left₀ _ hstep, sub_self, abs_zero]

/-! ### Checks -/

section Check

variable {p : JacobianProblem σ ℝ m n} {x : Vec ℝ n} {s : σ}

/-- A check that is not aborted rates what the three calls return. -/
theorem check_eq_ok {r : Vec ℝ m} {s' : σ} (h : check nm p x s = (.ok r, s')) :
    ∃ fvec s₁ fjac s₂ fvecp, p.evaluate x s = (.ok fvec, s₁) ∧ p.jacobian x s₁ = (.ok fjac, s₂) ∧
      p.evaluate (perturbedPoint nm x) s₂ = (.ok fvecp, s') ∧ r = ratings nm x fvec fjac fvecp := by
  unfold check at h
  rcases heval : p.evaluate x s with ⟨e | fvec, s₁⟩
  · simp [heval] at h
  · rcases hjac : p.jacobian x s₁ with ⟨e | fjac, s₂⟩
    · simp [heval, hjac] at h
    · rcases hnear : p.evaluate (perturbedPoint nm x) s₂ with ⟨e | fvecp, s₃⟩
      · simp [heval, hjac, hnear] at h
      · simp only [heval, hjac, hnear, Prod.mk.injEq, Except.ok.injEq] at h
        obtain ⟨rfl, rfl⟩ := h
        exact ⟨fvec, s₁, fjac, s₂, fvecp, rfl, hjac, hnear, rfl⟩

/-- A check is aborted only by a call. -/
theorem exists_check_eq_ok (hp : p.NeverAborts) : ∃ r s', check nm p x s = (.ok r, s') := by
  obtain ⟨fvec, s₁, heval⟩ := hp.evaluate x s
  obtain ⟨fjac, s₂, hjac⟩ := hp.jacobian x s₁
  obtain ⟨fvecp, s₃, hnear⟩ := hp.evaluate (perturbedPoint nm x) s₂
  exact ⟨ratings nm x fvec fjac fvecp, s₃, by simp only [check, heval, hjac, hnear]⟩

end Check

/-- In exact arithmetic the ratings lie between zero and one and fall as the discrepancy grows. If
something can be said about a residual, its rating is zero exactly if the discrepancy is as large as
the residual. A check rates what its calls return, and with one if the residual is affine and the
Jacobian is its own. -/
theorem ratings_measure_discrepancy (nm : Numerics ℝ) (hpos : 0 < nm.epsilon)
    (hlt : nm.epsilon < 1) :
    (∀ (x : Vec ℝ n) (fvec : Vec ℝ m) (fjac : Mat ℝ m n) (fvecp : Vec ℝ m) (i : Fin m),
      ratings nm x fvec fjac fvecp i ∈ Set.Icc 0 1) ∧
    (∀ (fvec fvecp : Vec ℝ m) (x x' : Vec ℝ n) (fjac fjac' : Mat ℝ m n) (i : Fin m),
      discrepancy nm x fvec fjac fvecp i ≤ discrepancy nm x' fvec fjac' fvecp i →
      ratings nm x' fvec fjac' fvecp i ≤ ratings nm x fvec fjac fvecp i) ∧
    (∀ (x : Vec ℝ n) (fvec : Vec ℝ m) (fjac : Mat ℝ m n) (fvecp : Vec ℝ m) (i : Fin m),
      Conclusive nm (fvec i) (fvecp i) →
      (ratings nm x fvec fjac fvecp i = 0 ↔
        |fvec i| + |fvecp i| ≤ discrepancy nm x fvec fjac fvecp i)) ∧
    (∀ (p : JacobianProblem σ ℝ m n) (x : Vec ℝ n) (s : σ) (r : Vec ℝ m) (s' : σ),
      check nm p x s = (.ok r, s') → ∃ fvec s₁ fjac s₂ fvecp, p.evaluate x s = (.ok fvec, s₁) ∧
        p.jacobian x s₁ = (.ok fjac, s₂) ∧
        p.evaluate (perturbedPoint nm x) s₂ = (.ok fvecp, s') ∧
        r = ratings nm x fvec fjac fvecp) ∧
    ∀ (p : JacobianProblem σ ℝ m n) (a : Mat ℝ m n) (b : Vec ℝ m), p.IsAffine a b →
      ∀ (x : Vec ℝ n) (s : σ),
        (p.NeverAborts → ∃ r s', check nm p x s = (.ok r, s')) ∧
        ∀ r s', check nm p x s = (.ok r, s') → ∀ i,
          Conclusive nm (affine a b x i) (affine a b (perturbedPoint nm x) i) → r i = 1 := by
  refine ⟨?_, ?_, ?_, fun _ _ _ _ _ => check_eq_ok, ?_⟩
  · intro x fvec fjac fvecp i
    rw [ratings, Vec.of_apply]
    exact rate_mem_Icc hpos hlt _
  · intro fvec fvecp x x' fjac fjac' i hle
    exact ratings_antitone hpos hlt hle
  · intro x fvec fjac fvecp i h
    exact ratings_eq_zero_iff hpos hlt h
  · intro p a b hp x s
    refine ⟨exists_check_eq_ok, ?_⟩
    intro r s' hcheck i h
    obtain ⟨fvec, s₁, fjac, s₂, fvecp, heval, hjac, hnear, rfl⟩ := check_eq_ok hcheck
    obtain rfl := hp.residuals x s fvec s₁ heval
    obtain rfl := hp.jacobian x s₁ fjac s₂ hjac
    obtain rfl := hp.residuals _ s₂ fvecp s' hnear
    exact ratings_eq_one hpos hlt h (discrepancy_affine hpos _ b x i)

/-- The sum of two unknowns and five is rated with one, also if one of the unknowns is zero and the
other one negative. With five times the Jacobian it is rated with zero. -/
theorem ratings_measure_discrepancy_sum :
    let nm := Numerics.exact (1 / 1000000) 1 true
    let a : Mat ℝ 1 2 := Mat.const 1 2 1
    let b : Vec ℝ 1 := Vec.const 1 5
    let x : Vec ℝ 2 := Vec.of ![0, -2]
    let p : JacobianProblem Unit ℝ 1 2 :=
      { evaluate := fun x s => (.ok (affine a b x), s), jacobian := fun _ s => (.ok a, s) }
    let y := perturbedPoint nm x
    0 < nm.epsilon ∧ nm.epsilon < 1 ∧ p.IsAffine a b ∧ p.NeverAborts ∧
      Conclusive nm (affine a b x 0) (affine a b y 0) ∧
      (∃ r s', check nm p x () = (.ok r, s') ∧ r 0 = 1) ∧
      ratings nm x (affine a b x) (Mat.const 1 2 5) (affine a b y) 0 = 0 := by
  intro nm a b x p y
  have hpos : (0 : ℝ) < 1 / 1000000 := by norm_num
  have hlt : (1 / 1000000 : ℝ) < 1 := by norm_num
  have hstep : √(1 / 1000000 : ℝ) = 1 / 1000 := by
    rw [Real.sqrt_eq_iff_mul_self_eq (by norm_num) (by norm_num)]
    norm_num
  have hp : p.IsAffine a b := by
    constructor
    · intro x s v s' h
      cases h
      rfl
    · intro x s jac s' h
      cases h
      rfl
  have hnever : p.NeverAborts :=
    ⟨⟨fun x s => ⟨_, _, rfl⟩, fun k x f s => ⟨_, _, rfl⟩⟩, fun x s => ⟨_, _, rfl⟩⟩
  have hsum (c : ℝ) : ∑ j, weight (x j) * Mat.const 1 2 c 0 j = 3 * c := by
    simp [x, weight]
    ring
  have hbase : affine a b x 0 = 3 := by
    simp [affine, a, b, x]
    norm_num
  have hchange : affine a b y 0 - affine a b x 0 = 3 / 1000 := by
    have h : affine a b y 0 - affine a b x 0 = √nm.epsilon * ∑ j, weight (x j) * a 0 j :=
      affine_perturbedPoint hpos a b x 0
    rw [hsum] at h
    rw [h]
    change √(1 / 1000000 : ℝ) * (3 * 1) = 3 / 1000
    rw [hstep]
    norm_num
  have hnear : affine a b y 0 = 3 + 3 / 1000 := by linarith
  have hconclusive : Conclusive nm (affine a b x 0) (affine a b y 0) := by
    refine ⟨?_, ?_, ?_⟩
    · rw [hbase]
      norm_num
    · rw [hnear]
      norm_num
    · change 100 * (1 / 1000000 : ℝ) * _ ≤ _
      rw [hchange, hbase, abs_of_pos (by norm_num), abs_of_pos (by norm_num)]
      norm_num
  obtain ⟨-, -, hzero, -, hone⟩ :=
    ratings_measure_discrepancy (σ := Unit) (m := 1) (n := 2) nm hpos hlt
  obtain ⟨hok, hall⟩ := hone p a b hp x ()
  obtain ⟨r, s', hr⟩ := hok hnever
  refine ⟨hpos, hlt, hp, hnever, hconclusive, ⟨r, s', hr, hall r s' hr 0 hconclusive⟩, ?_⟩
  refine (hzero x _ _ _ 0 hconclusive).2 ?_
  change _ ≤ |(affine a b y 0 - affine a b x 0) / √(1 / 1000000 : ℝ) - _|
  rw [hsum, hchange, hstep, hbase, hnear]
  norm_num [abs_of_pos, abs_of_neg]

end JacobianCheck

end NonlinearSolve

import NonlinearSolve.Proofs.TrustRegion.Newton

/-! # The search for the damping

For a regular factor whose Gauss-Newton step is too long, the search is Newton's method for the
damping at which the scaled step is as long as the radius. So its brackets contain this root
(`Subproblem.Bracket.Contains`), what is probed after the first probe is not above it, and these
dampings do not decrease (`Subproblem.Approaches`). `Subproblem.solve_near_radius` concludes how
long the returned step is. -/

namespace NonlinearSolve

open Matrix Scalar NormalEquations Secular

variable {n : Nat} {ε τ : ℝ} {z : Bool}

namespace Subproblem

variable {sp : Subproblem ℝ n} {L : ℝ} {v : Fin n → ℝ}

/-! ### Brackets of the root -/

/-- The damping `L` at which the solution is as long as the radius. -/
structure RootAt (sp : Subproblem ℝ n) (L : ℝ) (w v : Fin n → ℝ) : Prop where
  regular : Regular sp
  point : PointAt sp L w v
  length_eq : length w = sp.radius

/-- A bracket with a positive lower end that contains `L`, with a damping that is not below. -/
structure Bracket.Contains (b : Bracket ℝ) (L : ℝ) : Prop where
  lower_pos : 0 < b.lower
  lower_le : b.lower ≤ L
  le_upper : L ≤ b.upper
  lower_le_damping : b.lower ≤ b.damping

namespace Bracket.Contains

variable {b : Bracket ℝ} (hb : b.Contains L)

include hb

/-- The damping of such a bracket is positive. -/
theorem damping_pos : 0 < b.damping := hb.lower_pos.trans_le hb.lower_le_damping

/-- Nothing in such a bracket is negative. -/
theorem nonneg : b.Nonneg := ⟨hb.damping_pos.le, hb.lower_pos.le⟩

/-- A positive damping is probed as it is. -/
theorem probe_damping (sp : Subproblem ℝ n) (nm : Numerics ℝ) :
    (sp.probe nm b).damping = b.damping :=
  probe_damping_of_ne_zero sp nm hb.damping_pos.ne'

end Bracket.Contains

namespace RootAt

variable {w : Fin n → ℝ} (h : RootAt sp L w v)

include h

/-- The solution at the root has a positive length, so the right hand side does not vanish. -/
theorem rhs_ne_zero : sp.scaledEquations.rhs ≠ 0 :=
  h.point.rhs_ne_zero h.regular.posDef (h.length_eq ▸ h.regular.radius_pos)

section Probes

variable (hτ : 0 < τ) {b : Bracket ℝ} (hb : b.Nonneg)

include hτ hb

/-- A probe is too long exactly at the dampings below the root. -/
theorem excess_nonneg_iff : 0 ≤ (sp.probe (Numerics.exact ε τ z) b).excess ↔
    (sp.probe (Numerics.exact ε τ z) b).damping ≤ L := by
  obtain ⟨v', hp⟩ := h.regular.exists_point_probe (ε := ε) (z := z) hτ hb
  rw [probe_excess, sub_nonneg, probe_norm_eq_length, ← h.length_eq]
  exact hp.length_le_iff h.regular.posDef h.point h.rhs_ne_zero

/-- A probe is short enough exactly from the root on. -/
theorem excess_nonpos_iff : (sp.probe (Numerics.exact ε τ z) b).excess ≤ 0 ↔
    L ≤ (sp.probe (Numerics.exact ε τ z) b).damping := by
  obtain ⟨v', hp⟩ := h.regular.exists_point_probe (ε := ε) (z := z) hτ hb
  rw [probe_excess, sub_nonpos, probe_norm_eq_length, ← h.length_eq]
  exact h.point.length_le_iff h.regular.posDef hp h.rhs_ne_zero

/-- The Newton iterate after a probe is not above the root. -/
theorem newton_le : (sp.probe (Numerics.exact ε τ z) b).damping +
    sp.correction (Numerics.exact ε τ z) (sp.probe (Numerics.exact ε τ z) b) ≤ L := by
  obtain ⟨v', hp⟩ := h.regular.exists_point_probe (ε := ε) (z := z) hτ hb
  rw [h.regular.correction_eq hτ hb h.rhs_ne_zero hp, probe_excess, probe_norm_eq_length,
    ← h.length_eq]
  exact hp.newton_le h.regular.posDef h.point h.rhs_ne_zero

/-- A probe below the root leads upwards. -/
theorem damping_le_newton (hle : (sp.probe (Numerics.exact ε τ z) b).damping ≤ L) :
    (sp.probe (Numerics.exact ε τ z) b).damping ≤
      (sp.probe (Numerics.exact ε τ z) b).damping +
        sp.correction (Numerics.exact ε τ z) (sp.probe (Numerics.exact ε τ z) b) := by
  obtain ⟨v', hp⟩ := h.regular.exists_point_probe (ε := ε) (z := z) hτ hb
  have hexcess := (h.excess_nonneg_iff hτ hb).2 hle
  have hrate := hp.rate_dot_pos h.regular.posDef h.rhs_ne_zero
  rw [h.regular.correction_eq hτ hb h.rhs_ne_zero hp]
  exact le_add_of_nonneg_right (mul_nonneg (div_nonneg hexcess h.regular.radius_pos.le)
    (div_nonneg (sq_nonneg _) hrate.le))

end Probes

section FirstBracket

variable (hlong : sp.radius < sp.scaledLength sp.gaussNewton.get) (estimate : ℝ)

include hlong

/-- The lower end of the first bracket is positive and not above the root. -/
theorem lower_firstBracket :
    0 < (sp.firstBracket (Numerics.exact ε τ z) estimate).lower ∧
      (sp.firstBracket (Numerics.exact ε τ z) estimate).lower ≤ L := by
  obtain ⟨v₀, hp₀⟩ := h.regular.exists_point_gaussNewton
  have hrate := hp₀.rate_dot_pos h.regular.posDef h.rhs_ne_zero
  have hnewton := hp₀.newton_le h.regular.posDef h.point h.rhs_ne_zero
  have hlower : (sp.firstBracket (Numerics.exact ε τ z) estimate).lower =
      sp.lowerEnd (Numerics.exact ε τ z) (sp.scale.diagMul sp.gaussNewton)
        (sp.scaledLength sp.gaussNewton.get) := by
    rw [← sp.scaledNorm_eq]
    rfl
  rw [hlower, h.regular.lowerEnd_eq h.rhs_ne_zero hp₀]
  rw [scaledLength_gaussNewton] at hlong ⊢
  rw [zero_add, h.length_eq] at hnewton
  exact ⟨mul_pos (div_pos (sub_pos.2 hlong) h.regular.radius_pos)
    (div_pos (pow_pos (h.regular.radius_pos.trans hlong) 2) hrate), hnewton⟩

omit hlong in
/-- The upper end of the first bracket is not below the root. -/
theorem le_upper_firstBracket : L ≤ (sp.firstBracket (Numerics.exact ε τ z) estimate).upper := by
  have hupper : (sp.firstBracket (Numerics.exact ε τ z) estimate).upper =
      sp.upperEnd (Numerics.exact ε τ z) := rfl
  have hle := h.point.mul_length_le h.regular.posDef
  rw [h.length_eq] at hle
  rw [hupper, h.regular.upperEnd_eq h.rhs_ne_zero, le_div_iff₀ h.regular.radius_pos]
  exact hle

/-- The first damping is the estimate, moved into the bracket. -/
theorem damping_firstBracket : (sp.firstBracket (Numerics.exact ε τ z) estimate).damping =
    min (max estimate (sp.firstBracket (Numerics.exact ε τ z) estimate).lower)
      (sp.firstBracket (Numerics.exact ε τ z) estimate).upper := by
  obtain ⟨hpos, hle⟩ := h.lower_firstBracket (ε := ε) (τ := τ) (z := z) hlong estimate
  have hupper := h.le_upper_firstBracket (ε := ε) (τ := τ) (z := z) estimate
  have hne : min (max estimate (sp.firstBracket (Numerics.exact ε τ z) estimate).lower)
      (sp.firstBracket (Numerics.exact ε τ z) estimate).upper ≠ 0 :=
    (lt_min (lt_max_of_lt_right hpos) (hpos.trans_le (hle.trans hupper))).ne'
  rw [firstBracket, bracket] at hne ⊢
  simp only [Exact.maxNum_eq, Exact.minNum_eq] at hne ⊢
  rw [if_neg (mt (Exact.beq_iff _ _).1 hne)]

/-- The first bracket contains the root. -/
theorem contains_firstBracket : (sp.firstBracket (Numerics.exact ε τ z) estimate).Contains L := by
  obtain ⟨hpos, hle⟩ := h.lower_firstBracket (ε := ε) (τ := τ) (z := z) hlong estimate
  have hupper := h.le_upper_firstBracket (ε := ε) (τ := τ) (z := z) estimate
  refine ⟨hpos, hle, hupper, ?_⟩
  rw [h.damping_firstBracket hlong]
  exact le_min (le_max_right _ _) (hle.trans hupper)

end FirstBracket

/-! ### The course of the search -/

section Course

variable (hτ : 0 < τ) {b : Bracket ℝ} (hb : b.Contains L)

include hτ hb

/-- A probe leaves the root in the bracket. -/
theorem contains_refine : (sp.refine (Numerics.exact ε τ z) b
    (sp.probe (Numerics.exact ε τ z) b)).Contains L where
  lower_pos := hb.lower_pos.trans_le (le_refine_lower sp _ b _)
  lower_le := by
    rw [refine_lower]
    split
    · next hlong => exact max_le hb.lower_le ((h.excess_nonneg_iff hτ hb.nonneg).1 hlong.le)
    · exact hb.lower_le
  le_upper := by
    rw [refine_upper]
    split
    · next hshort => exact le_min hb.le_upper ((h.excess_nonpos_iff hτ hb.nonneg).1 hshort.le)
    · exact hb.le_upper
  lower_le_damping := refine_lower_le_damping sp _ b _

/-- The damping after a probe is not above the root. -/
theorem damping_refine_le : (sp.refine (Numerics.exact ε τ z) b
    (sp.probe (Numerics.exact ε τ z) b)).damping ≤ L := by
  rw [refine_damping]
  exact max_le (h.contains_refine hτ hb).lower_le (h.newton_le hτ hb.nonneg)

/-- A damping that is not above the root does not decrease. -/
theorem damping_le_refine (hle : b.damping ≤ L) : b.damping ≤ (sp.refine (Numerics.exact ε τ z) b
    (sp.probe (Numerics.exact ε τ z) b)).damping := by
  have hprobe := hb.probe_damping sp (Numerics.exact ε τ z)
  have hnewton := h.damping_le_newton (ε := ε) (z := z) hτ hb.nonneg (hprobe.le.trans hle)
  rw [refine_damping]
  exact le_max_of_le_right (hprobe.ge.trans hnewton)

/-- Every bracket of the search contains the root. -/
theorem contains_trail (i : Nat) : (sp.trail (Numerics.exact ε τ z) b i).Contains L := by
  induction i with
  | zero => exact hb
  | succ i ih => exact h.contains_refine hτ ih

end Course

end RootAt

/-- A search along whose trail the brackets contain `L`, and that approaches `L` from below after
the first probe. -/
structure Approaches (sp : Subproblem ℝ n) (nm : Numerics ℝ) (b : Bracket ℝ) (L : ℝ) : Prop where
  contains (i : Nat) : (sp.trail nm b i).Contains L
  /-- No damping is replaced before it is probed. -/
  probed (i : Nat) : (sp.probe nm (sp.trail nm b i)).damping = (sp.trail nm b i).damping
  le (i : Nat) : 1 ≤ i → (sp.trail nm b i).damping ≤ L
  mono (i : Nat) : 1 ≤ i → (sp.trail nm b i).damping ≤ (sp.trail nm b (i + 1)).damping
  /-- A probe is accepted only if its length is within a tenth of the radius. -/
  accepts_iff (i : Nat) : sp.acceptsAt nm b i = true ↔
    |(sp.probe nm (sp.trail nm b i)).excess| ≤ 0.1 * sp.radius

/-- The brackets of a search that starts around the root approach it. -/
theorem RootAt.approaches {w : Fin n → ℝ} (h : RootAt sp L w v) (hτ : 0 < τ) {b : Bracket ℝ}
    (hb : b.Contains L) : Approaches sp (Numerics.exact ε τ z) b L where
  contains := h.contains_trail hτ hb
  probed i := (h.contains_trail hτ hb i).probe_damping sp _
  le := by
    rintro (_ | i) hi
    · omega
    · exact h.damping_refine_le hτ (h.contains_trail hτ hb i)
  mono := by
    rintro (_ | i) hi
    · omega
    · exact h.damping_le_refine hτ (h.contains_trail hτ hb (i + 1))
        (h.damping_refine_le hτ (h.contains_trail hτ hb i))
  accepts_iff i := by
    have hlower : (sp.trail (Numerics.exact ε τ z) b i).lower ≠ 0 :=
      (h.contains_trail hτ hb i).lower_pos.ne'
    have hbeq := (Exact.beq_eq_false_iff _ _).2 hlower
    rw [acceptsAt, accepts, hbeq, Bool.false_and, Bool.false_and, Bool.or_false, decide_eq_true_iff,
      Exact.mag_eq]

/-- The search ends with a step that is at most a tenth shorter than the radius, and at most a tenth
longer unless all probes were used. -/
theorem RootAt.length_of_endsAt {w : Fin n → ℝ} (h : RootAt sp L w v) (hτ : 0 < τ) {b : Bracket ℝ}
    (hb : b.Contains L) {limit last : Nat} (hlimit : 1 ≤ limit)
    (hends : sp.EndsAt (Numerics.exact ε τ z) b limit last) :
    0.9 * sp.radius ≤
        (sp.probe (Numerics.exact ε τ z) (sp.trail (Numerics.exact ε τ z) b last)).norm ∧
      (last < limit →
        (sp.probe (Numerics.exact ε τ z) (sp.trail (Numerics.exact ε τ z) b last)).norm ≤
          1.1 * sp.radius) := by
  have happroaches := h.approaches (ε := ε) (z := z) hτ hb
  have hexcess := probe_excess sp (Numerics.exact ε τ z) (sp.trail (Numerics.exact ε τ z) b last)
  have hradius := h.regular.radius_pos
  obtain hlt | rfl := hends.le.lt_or_eq
  · -- an accepted probe is close to the radius on both sides
    obtain ⟨hlower, hupper⟩ := abs_le.1 ((happroaches.accepts_iff last).1 (hends.accepts hlt))
    rw [hexcess] at hlower hupper
    exact ⟨by linarith, fun _ => by linarith⟩
  · -- the last probe is below the root
    have hnonneg := (h.excess_nonneg_iff (ε := ε) (z := z) hτ (happroaches.contains last).nonneg).2
      ((happroaches.probed last).le.trans (happroaches.le last hlimit))
    rw [hexcess] at hnonneg
    exact ⟨by linarith, fun hlt => absurd hlt (lt_irrefl _)⟩

/-! ### The solution -/

/-- If the factor is regular and the Gauss-Newton step is too long, there is exactly one damping at
which the step is as long as the radius. The search begins with the estimate, moved into a bracket,
and approaches that damping. It ends with a step that is at most a tenth shorter than the radius,
and at most a tenth longer unless all ten probes were used. -/
theorem solve_near_radius (hτ : 0 < τ) (h : Regular sp)
    (hlong : 1.1 * sp.radius < sp.scaledLength sp.gaussNewton.get) (estimate : ℝ) :
    let nm := Numerics.exact ε τ z
    let b := sp.firstBracket nm estimate
    let d := sp.solve nm estimate
    ∃ L, (∀ L', IsRoot sp L' ↔ L' = L) ∧
      b.damping = min (max estimate b.lower) b.upper ∧
      Approaches sp nm b L ∧
      ∃ last, sp.EndsAt nm b 9 last ∧ d = (sp.probe nm (sp.trail nm b last)).toDampedStep ∧
        0.9 * sp.radius ≤ sp.scaledLength d.step.get ∧
        (last < 9 → sp.scaledLength d.step.get ≤ 1.1 * sp.radius) := by
  intro nm b d
  have hradius := h.radius_pos
  have hlonger : sp.radius < sp.scaledLength sp.gaussNewton.get := by linarith
  obtain ⟨L, hL, hunique⟩ := h.existsUnique_isRoot hlonger
  obtain ⟨-, w, v, hp, hlength⟩ := h.isRoot_iff.1 hL
  have hroot : RootAt sp L w v := ⟨h, hp, hlength⟩
  have hb : b.Contains L := hroot.contains_firstBracket hlonger estimate
  refine ⟨L, fun L' => ⟨hunique L', ?_⟩, hroot.damping_firstBracket hlonger estimate,
    hroot.approaches hτ hb, ?_⟩
  · rintro rfl
    exact hL
  · obtain ⟨hshort, -⟩ | ⟨-, last, hends, hsolve⟩ := sp.solve_cases nm estimate
    · rw [scaledNorm_eq] at hshort
      linarith
    · obtain ⟨hlower, hupper⟩ := hroot.length_of_endsAt hτ hb (by omega) hends
      have hd : d = (sp.probe nm (sp.trail nm b last)).toDampedStep := hsolve
      have hstep : sp.scaledLength d.step.get = (sp.probe nm (sp.trail nm b last)).norm := by
        rw [hd, ← sp.scaledNorm_eq (ε := ε) (τ := τ) (z := z)]
        rfl
      rw [hstep]
      exact ⟨last, hends, hsolve, hlower, hupper⟩

/-- One unknown, whose Gauss-Newton step is four times as long as the radius: the step
`4 / (1 + L)` is as long as the radius for `L = 3`. -/
theorem solve_near_radius_oneUnknown :
    let sp : Subproblem ℝ 1 :=
      { r := Mat.const 1 1 1, order := Vec.identity 1, scale := Vec.const 1 1, rhs := Vec.const 1 4
        radius := 1 }
    Regular sp ∧ 1.1 * sp.radius < sp.scaledLength sp.gaussNewton.get ∧
      (∀ L, IsRoot sp L ↔ L = 3) ∧
      0.9 * sp.radius ≤ sp.scaledLength (sp.solve (Numerics.exact 0 1 false) 0).step.get := by
  intro sp
  have hentry : ∀ i j, sp.r i j = 1 := fun i j => Mat.const_apply 1 i j
  have hscale : ∀ i, sp.scale i = 1 := Vec.const_apply 1
  have hregular : Regular sp := by
    refine ⟨?_, fun j => ?_, fun i => ?_, one_pos⟩
    · rw [Vec.get_identity]
      exact Function.bijective_id
    · rw [hentry]
      exact one_ne_zero
    · rw [hscale]
      exact one_pos
  have hupper : sp.r.upper 0 0 = 1 := by
    rw [sp.r.upper_of_le le_rfl]
    exact hentry 0 0
  have hbasic : BasicSolution sp fun _ => 4 := by
    refine ⟨fun j hj => ?_, fun j _ => ?_⟩
    · have hone : sp.r.diagonal.firstZero = 1 := Vec.firstZero_eq_iff.2 fun j => by
        rw [Mat.diagonal_apply]
        exact hregular.diag_ne_zero j
      omega
    · obtain rfl : j = 0 := Subsingleton.elim j 0
      change ∑ i, sp.r.upper 0 i * 4 = (Vec.const 1 4 : Vec ℝ 1) 0
      rw [Fin.sum_univ_one, hupper, Vec.const_apply, one_mul]
  have hlength : sp.scaledLength sp.gaussNewton.get = 4 := by
    rw [← (basicSolution_iff hregular.bijective _).1 hbasic, scaledLength, Fin.sum_univ_one, hscale,
      one_mul, Real.sqrt_sq (by norm_num)]
  have hlong : 1.1 * sp.radius < sp.scaledLength sp.gaussNewton.get := by
    rw [hlength]
    norm_num [sp]
  have hroot : IsRoot sp 3 := by
    have hmatrix : sp.normalEquations.matrix 0 0 = 1 := by
      have hgram := congrFun (congrFun hregular.factored.gram 0) 0
      rw [mul_apply, Fin.sum_univ_one, transpose_apply, hupper, mul_one] at hgram
      exact hgram.symm
    have hrhs : sp.normalEquations.rhs 0 = 4 := by
      have hgradient : ∑ i, sp.r.upper i 0 * (Vec.const 1 4 : Vec ℝ 1) i =
          sp.normalEquations.rhs 0 := congrFun hregular.factored.gradient 0
      rw [Fin.sum_univ_one, hupper, Vec.const_apply, one_mul] at hgradient
      exact hgradient.symm
    refine ⟨by norm_num, fun _ => 1, ?_, ?_⟩
    · funext i
      obtain rfl : i = 0 := Subsingleton.elim i 0
      change ∑ j, (sp.normalEquations.matrix + (3 : ℝ) • diagonal sp.scale.get ^ 2) 0 j * 1 = _
      rw [Fin.sum_univ_one, diagonal_pow, Matrix.add_apply, Matrix.smul_apply, diagonal_apply_eq,
        Pi.pow_apply, hmatrix, hrhs, hscale]
      norm_num
    · rw [scaledLength, Fin.sum_univ_one, hscale, one_mul, one_pow, Real.sqrt_one]
  obtain ⟨L, hunique, -, -, last, -, -, hlower, -⟩ :=
    solve_near_radius (ε := 0) (z := false) one_pos hregular hlong 0
  obtain rfl : 3 = L := (hunique 3).1 hroot
  exact ⟨hregular, hlong, hunique, hlower⟩

end Subproblem

end NonlinearSolve

import Mathlib.Order.Bounds.Basic
import NonlinearSolve.Proofs.Course.Iterates
import NonlinearSolve.Proofs.Exact.Arithmetic
import NonlinearSolve.Proofs.Linear.Factorization

/-! # The scaling in the course of a solve

With the scaling by the Jacobian, the scaling factor of an unknown is the largest norm that its
column has had in the Jacobians so far, but that a zero column of the first Jacobian counts as one
(`IsLargestNorm`). A solve of which this is true at every trial step (`ScalesByJacobians`) never
makes a scaling factor smaller. -/

namespace NonlinearSolve

open Scalar

variable {σ τ : Type} {m n : Nat}

/-! ### Largest norms -/

/-- The Euclidean norm of a column. -/
noncomputable def colNorm (a : Mat ℝ m n) (j : Fin n) : ℝ := √(∑ i, a i j ^ 2)

/-- A factorization notes the norms of the columns in the order of the unknowns, also if it
pivots. -/
theorem colNorm_factor (ε τ : ℝ) (z pivot : Bool) (a : Mat ℝ m n) (j : Fin n) :
    (QR.factor (Numerics.exact ε τ z) pivot a).colNorm j = colNorm a j := by
  rw [QR.factor_colNorm, Vec.of_apply, Numerics.vecNorm_exact]
  rfl

/-- The scaling factor by a Jacobian alone. -/
noncomputable def ownScale (a : Mat ℝ m n) (j : Fin n) : ℝ :=
  if colNorm a j = 0 then 1 else colNorm a j

/-- The number `d` is the largest of the scaling factor by the first of the Jacobians `jacs` alone
and of the norms of the columns `j` of all of them. -/
def IsLargestNorm (jacs : List (Mat ℝ m n)) (j : Fin n) (d : ℝ) : Prop :=
  ∃ a ∈ jacs.head?, IsGreatest (insert (ownScale a j) {y | ∃ b ∈ jacs, colNorm b j = y}) d

section LargestNorm

variable {jacs jacs' : List (Mat ℝ m n)} {a b : Mat ℝ m n} {j : Fin n} {d d' : ℝ}

/-- The scale factor a column gives itself is positive, a zero column counting as one. -/
theorem ownScale_pos (a : Mat ℝ m n) (j : Fin n) : 0 < ownScale a j := by
  rw [ownScale]
  split
  · exact one_pos
  · rename_i hne
    exact lt_of_le_of_ne (Real.sqrt_nonneg _) (Ne.symm hne)

/-- The largest of such scale factors is positive. -/
theorem IsLargestNorm.pos (h : IsLargestNorm jacs j d) : 0 < d := by
  obtain ⟨a, -, hgreatest⟩ := h
  exact (ownScale_pos a j).trans_le (hgreatest.2 (Set.mem_insert _ _))

/-- If all Jacobians so far are the same, their scaling factor is the larger of its two. -/
theorem IsLargestNorm.of_forall_eq (hne : jacs ≠ []) (hall : ∀ b ∈ jacs, b = a) :
    IsLargestNorm jacs j (max (ownScale a j) (colNorm a j)) := by
  obtain ⟨b, rest, rfl⟩ := List.exists_cons_of_ne_nil hne
  obtain rfl : b = a := hall b List.mem_cons_self
  refine ⟨b, rfl, ?_, ?_⟩
  · rcases max_choice (ownScale b j) (colNorm b j) with hmax | hmax
    · rw [hmax]
      exact Set.mem_insert _ _
    · rw [hmax]
      exact Set.mem_insert_of_mem _ ⟨b, List.mem_cons_self, rfl⟩
  · rintro y (rfl | ⟨b', hb', rfl⟩)
    · exact le_max_left _ _
    · rw [hall b' hb']
      exact le_max_right _ _

/-- One more Jacobian can only make the largest norm larger. -/
theorem IsLargestNorm.append (h : IsLargestNorm jacs j d) (b : Mat ℝ m n) :
    IsLargestNorm (jacs ++ [b]) j (max d (colNorm b j)) := by
  obtain ⟨a, hhead, hmem, hupper⟩ := h
  have hsub : insert (ownScale a j) {y | ∃ b ∈ jacs, colNorm b j = y} ⊆
      insert (ownScale a j) {y | ∃ b' ∈ jacs ++ [b], colNorm b' j = y} := by
    refine Set.insert_subset_insert ?_
    rintro y ⟨b', hb', rfl⟩
    exact ⟨b', List.mem_append_left _ hb', rfl⟩
  refine ⟨a, ?_, ?_, ?_⟩
  · rw [List.head?_append, Option.mem_def.1 hhead]
    rfl
  · rcases max_choice d (colNorm b j) with hmax | hmax
    · rw [hmax]
      exact hsub hmem
    · rw [hmax]
      exact Set.mem_insert_of_mem _
        ⟨b, List.mem_append_right _ (List.mem_singleton_self b), rfl⟩
  · rintro y (rfl | ⟨b', hb', rfl⟩)
    · exact (hupper (Set.mem_insert _ _)).trans (le_max_left _ _)
    · rcases List.mem_append.1 hb' with hold | hnew
      · exact (hupper (Set.mem_insert_of_mem _ ⟨b', hold, rfl⟩)).trans (le_max_left _ _)
      · rw [List.mem_singleton.1 hnew]
        exact le_max_right _ _

/-- With more Jacobians the largest norm is not smaller. -/
theorem IsLargestNorm.le (h : IsLargestNorm jacs j d) (h' : IsLargestNorm jacs' j d')
    (hpre : jacs <+: jacs') : d ≤ d' := by
  obtain ⟨a, hhead, hmem, -⟩ := h
  obtain ⟨a', hhead', -, hupper⟩ := h'
  obtain ⟨more, rfl⟩ := hpre
  -- both lists have the same first Jacobian
  rw [List.head?_append, Option.mem_def.1 hhead] at hhead'
  cases hhead'
  refine hupper ?_
  rcases hmem with rfl | ⟨b, hb, rfl⟩
  · exact Set.mem_insert _ _
  · exact Set.mem_insert_of_mem _ ⟨b, List.mem_append_left _ hb, rfl⟩

end LargestNorm

/-! ### Scaling factors -/

section Iterates

variable {c : Settings ℝ} {it : Iterate ℝ m n} {nm : Numerics ℝ} {a : Mat ℝ m n} {norms : Vec ℝ n}

/-- Before the first step is accepted, the scaling is that by the Jacobian alone. -/
theorem scale_of_first (hc : c.scaling = .jacobian) (hit : it.iteration = 1)
    (hnorms : ∀ j, norms j = colNorm a j) (j : Fin n) :
    ((it.calibrate nm c norms).rescale c norms).scale j = max (ownScale a j) (colNorm a j) := by
  have hown : (norms.map fun d => if d == 0 then 1 else d) j = ownScale a j := by
    rw [Vec.map_apply, hnorms, ownScale]
    simp only [Exact.beq_iff]
  rw [Iterate.calibrate, if_pos hit]
  simp only [Iterate.rescale, Scaling.grow, Scaling.first, hc, Scaling.isAdaptive, if_true,
    Vec.of_apply, Exact.maxNum_eq, hown, hnorms]

/-- Afterwards it grows with the norms of the columns. -/
theorem scale_of_later (hc : c.scaling = .jacobian) (hit : it.iteration ≠ 1)
    (hnorms : ∀ j, norms j = colNorm a j) (j : Fin n) :
    ((it.calibrate nm c norms).rescale c norms).scale j = max (it.scale j) (colNorm a j) := by
  rw [Iterate.calibrate, if_neg hit]
  simp only [Iterate.rescale, Scaling.grow, hc, Scaling.isAdaptive, if_true, Vec.of_apply,
    Exact.maxNum_eq, hnorms]

/-- Adapting to one more Jacobian keeps the scaling factors the largest norms. As long as no step is
accepted they are set anew, so all Jacobians have to be the same until then. -/
theorem isLargestNorm_rescale (hc : c.scaling = .jacobian) (hnorms : ∀ j, norms j = colNorm a j)
    {jacs : List (Mat ℝ m n)}
    (hit : (it.iteration = 1 ∧ ∀ b ∈ jacs, b = a) ∨
      (it.iteration ≠ 1 ∧ ∀ j, IsLargestNorm jacs j (it.scale j))) (j : Fin n) :
    IsLargestNorm (jacs ++ [a]) j (((it.calibrate nm c norms).rescale c norms).scale j) := by
  obtain ⟨hfirst, hall⟩ | ⟨hlater, hlargest⟩ := hit
  · rw [scale_of_first hc hfirst hnorms]
    refine .of_forall_eq (List.append_ne_nil_of_right_ne_nil jacs (List.cons_ne_nil a [])) ?_
    intro b hb
    exact (List.mem_append.1 hb).elim (hall b) List.mem_singleton.1
  · rw [scale_of_later hc hlater hnorms]
    exact (hlargest j).append a

end Iterates

/-! ### Solves -/

/-- What the moves before a moment have linearized by, in this order. -/
def linearized {μ : Type} (jacobian? : μ → Option (Mat ℝ m n)) (course : Nat → μ) :
    Nat → List (Mat ℝ m n)
  | 0 => []
  | k + 1 => linearized jacobian? course k ++ (jacobian? (course k)).toList

/-- The Jacobians seen so far are the first of those seen later. -/
theorem linearized_mono {μ : Type} (jacobian? : μ → Option (Mat ℝ m n)) (course : Nat → μ)
    {k l : Nat} (hkl : k ≤ l) :
    linearized jacobian? course k <+: linearized jacobian? course l := by
  induction hkl with
  | refl => exact List.prefix_rfl
  | step _ ih => exact ih.trans (List.prefix_append _ _)

/-- In the course of the solve that the summary reports on, the scaling factors are at every trial
step the largest norms of the columns of the Jacobians so far. They are positive, and no one is
smaller at a later trial step. -/
structure ScalesByJacobians (jacobian? : Moment σ ℝ n τ → Option (Mat ℝ m n))
    (iterate : τ → Iterate ℝ m n) (course : Nat → Moment σ ℝ n τ) (sm : Summary ℝ m n) : Prop where
  largest (k : Nat) (t : Proposal ℝ n) (j : Fin n) : (course k).stage = .proposed t →
    IsLargestNorm (linearized jacobian? course k) j ((iterate (course k).state).scale j)
  pos (k : Nat) (t : Proposal ℝ n) (j : Fin n) : (course k).stage = .proposed t →
    0 < (iterate (course k).state).scale j
  monotone (k l : Nat) (t t' : Proposal ℝ n) (j : Fin n) : k ≤ l →
    (course k).stage = .proposed t → (course l).stage = .proposed t' →
    (iterate (course k).state).scale j ≤ (iterate (course l).state).scale j
  reported : ∃ k, (course k).stage = .ended sm.termination ∧
    (iterate (course k).state).summary sm.termination = sm

/-- Largest norms are positive and do not become smaller. -/
theorem ScalesByJacobians.of_largest {jacobian? : Moment σ ℝ n τ → Option (Mat ℝ m n)}
    {iterate : τ → Iterate ℝ m n} {course : Nat → Moment σ ℝ n τ} {sm : Summary ℝ m n}
    (h : ∀ k t j, (course k).stage = .proposed t →
      IsLargestNorm (linearized jacobian? course k) j ((iterate (course k).state).scale j))
    (hend : ∃ k, (course k).stage = .ended sm.termination ∧
      (iterate (course k).state).summary sm.termination = sm) :
    ScalesByJacobians jacobian? iterate course sm where
  largest := h
  pos k t j hk := (h k t j hk).pos
  monotone k l t t' j hkl hk hl :=
    (h k t j hk).le (h l t' j hl) (linearized_mono jacobian? course hkl)
  reported := hend

end NonlinearSolve

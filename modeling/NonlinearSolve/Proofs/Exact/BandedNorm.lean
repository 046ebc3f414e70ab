import NonlinearSolve.Proofs.Checked.Norm

/-! # What the norm in bands is

In exact arithmetic the norm in bands is the Euclidean norm, unless there is a large component: then
the small ones are left out (`Bands.norm_sq_of_large`). `Bands.norm_counts_squares` says this with
its consequences: neither the order nor the signs of the components matter, only the zero vector has
the norm zero, and what is left out is at most the square of the largest small number for every
component. -/

namespace NonlinearSolve

open Scalar

namespace Bands

variable {b : Bands ℝ} {xs ys : List ℝ}

/-! ### The square of the norm -/

/-- The norm of a nonempty list is read from its sums. -/
theorem norm_eq_norm_sums (hne : xs ≠ []) : b.norm xs = (b.sums xs).norm := by
  obtain ⟨x, xs, rfl⟩ := List.exists_cons_of_ne_nil hne
  rfl

/-- The banded norm is not negative. -/
theorem norm_nonneg (hne : xs ≠ []) (hlimit : 0 < b.large / xs.length) : 0 ≤ b.norm xs := by
  rw [norm_eq_norm_sums hne]
  exact (represents_sums b hlimit).norm_nonneg

/-- The squares of the large components are not zero together unless there is none. -/
theorem squares_large_eq_zero_iff {limit : ℝ} (hlimit : 0 < limit) :
    squares (fun x => limit ≤ |x|) xs = 0 ↔ ∀ x ∈ xs, |x| < limit := by
  constructor
  · intro hzero x hx
    by_contra hlarge
    have hle : x ^ 2 ≤ 0 := hzero ▸ sq_le_squares hx (not_lt.1 hlarge)
    have hpos : 0 < |x| := hlimit.trans_le (not_lt.1 hlarge)
    exact hle.not_gt (sq_pos_of_ne_zero (abs_pos.1 hpos))
  · intro hsmall
    exact squares_eq_zero fun x hx h => absurd (hsmall x hx) (not_lt.2 h)

/-- Without a large component all squares count. -/
theorem norm_sq_of_lt (hne : xs ≠ []) (hlimit : 0 < b.large / xs.length)
    (h : ∀ x ∈ xs, |x| < b.large / xs.length) : b.norm xs ^ 2 = (xs.map (· ^ 2)).sum := by
  have hzero := (squares_large_eq_zero_iff hlimit).2 h
  rw [norm_eq_norm_sums hne, (represents_sums b hlimit).norm_sq, if_neg (not_not.2 hzero),
    add_comm, ← squares_true, squares_eq_add (p := fun _ => True) (q := fun x => |x| ≤ b.small)]
  refine congrArg₂ (· + ·) (squares_congr ?_) (squares_congr ?_)
  · intro x hx
    exact and_congr_left fun _ => iff_of_true (not_le.2 (h x hx)) trivial
  · intro x hx
    exact and_congr_left fun _ => iff_of_true (not_le.2 (h x hx)) trivial

/-- With a large component, the small ones do not count. -/
theorem norm_sq_of_large (hne : xs ≠ []) (hsmall : 0 < b.small)
    (hlarge : b.small < b.large / xs.length) (h : ∃ x ∈ xs, b.large / xs.length ≤ |x|) :
    b.norm xs ^ 2 = squares (fun x => b.small < |x|) xs := by
  have hlimit := hsmall.trans hlarge
  have hnot : squares (fun x => b.large / xs.length ≤ |x|) xs ≠ 0 := by
    rw [Ne, squares_large_eq_zero_iff hlimit]
    push Not
    exact h
  rw [norm_eq_norm_sums hne, (represents_sums b hlimit).norm_sq, if_pos hnot,
    squares_eq_add (p := fun x => b.small < |x|) (q := fun x => b.large / xs.length ≤ |x|)]
  refine congrArg₂ (· + ·) (squares_congr ?_) (squares_congr ?_)
  · intro x _
    exact ⟨fun hx => ⟨hlarge.trans_le hx, hx⟩, And.right⟩
  · intro x _
    rw [not_le (a := |x|), and_comm]

/-! ### Consequences -/

/-- The signs of the components do not matter. -/
theorem norm_map_abs (b : Bands ℝ) (xs : List ℝ) : b.norm (xs.map fun x => |x|) = b.norm xs := by
  have hadd : ∀ limit s x, Sums.add b limit s |x| = Sums.add b limit s x := by
    intro limit s x
    rw [Sums.add, Sums.add, Exact.mag_eq, Exact.mag_eq, abs_abs]
  have hsums : b.sums (xs.map fun x => |x|) = b.sums xs := by
    rw [sums, sums, List.length_map, List.foldl_map]
    simp only [hadd]
  cases xs with
  | nil => rfl
  | cons x xs => exact congrArg Sums.norm hsums

/-- The order of the components does not matter. -/
theorem norm_perm (hne : xs ≠ []) (hsmall : 0 < b.small) (hlarge : b.small < b.large / xs.length)
    (h : ys.Perm xs) : b.norm ys = b.norm xs := by
  have hlength := h.length_eq
  have hne' : ys ≠ [] := by
    rw [← List.length_pos_iff, hlength, List.length_pos_iff]
    exact hne
  have hlarge' : b.small < b.large / ys.length := by rwa [hlength]
  have hlimit := hsmall.trans hlarge
  rw [← sq_eq_sq₀ (norm_nonneg hne' (hsmall.trans hlarge')) (norm_nonneg hne hlimit)]
  by_cases hex : ∃ x ∈ xs, b.large / xs.length ≤ |x|
  · have hex' : ∃ x ∈ ys, b.large / ys.length ≤ |x| := by
      obtain ⟨x, hx, hle⟩ := hex
      exact ⟨x, h.mem_iff.2 hx, by rwa [hlength]⟩
    rw [norm_sq_of_large hne hsmall hlarge hex, norm_sq_of_large hne' hsmall hlarge' hex']
    exact squares_perm h
  · push Not at hex
    rw [norm_sq_of_lt hne hlimit hex, norm_sq_of_lt hne' (hsmall.trans hlarge')]
    · exact (h.map _).sum_eq
    · intro x hx
      rw [hlength]
      exact hex x (h.mem_iff.1 hx)

/-- Only the zero vector has the norm zero. -/
theorem norm_eq_zero_iff (hne : xs ≠ []) (hsmall : 0 < b.small)
    (hlarge : b.small < b.large / xs.length) : b.norm xs = 0 ↔ ∀ x ∈ xs, x = 0 := by
  have hlimit := hsmall.trans hlarge
  constructor
  · intro hzero x hx
    by_cases hex : ∃ x ∈ xs, b.large / xs.length ≤ |x|
    · -- a large component counts
      obtain ⟨y, hy, hle⟩ := hex
      have hsq := norm_sq_of_large hne hsmall hlarge ⟨y, hy, hle⟩
      rw [hzero, zero_pow two_ne_zero] at hsq
      have hy0 : y ^ 2 ≤ 0 := hsq ▸ sq_le_squares hy (hlarge.trans_le hle)
      exact absurd (pow_eq_zero_iff two_ne_zero |>.1 (hy0.antisymm (sq_nonneg y)))
        (abs_pos.1 (hlimit.trans_le hle))
    · push Not at hex
      have hsq := norm_sq_of_lt hne hlimit hex
      rw [hzero, zero_pow two_ne_zero, ← squares_true] at hsq
      have hx0 : x ^ 2 ≤ 0 := hsq ▸ sq_le_squares hx trivial
      exact pow_eq_zero_iff two_ne_zero |>.1 (hx0.antisymm (sq_nonneg x))
  · intro hall
    have hsq := norm_sq_of_lt hne hlimit fun x hx => by rwa [hall x hx, abs_zero]
    rw [← pow_eq_zero_iff two_ne_zero, hsq]
    refine List.sum_eq_zero ?_
    intro y hy
    obtain ⟨x, hx, rfl⟩ := List.mem_map.1 hy
    rw [hall x hx, zero_pow two_ne_zero]

/-- What does not count is at most the square of the largest small number for every component. -/
theorem abs_norm_sq_sub_le (hne : xs ≠ []) (hsmall : 0 < b.small)
    (hlarge : b.small < b.large / xs.length) :
    |b.norm xs ^ 2 - (xs.map (· ^ 2)).sum| ≤ xs.length * b.small ^ 2 := by
  have hbound : 0 ≤ (xs.length : ℝ) * b.small ^ 2 := by positivity
  by_cases hex : ∃ x ∈ xs, b.large / xs.length ≤ |x|
  · rw [norm_sq_of_large hne hsmall hlarge hex, ← squares_true,
      squares_eq_add (p := fun _ => True) (q := fun x => b.small < |x|)]
    simp only [true_and]
    rw [sub_add_cancel_left, abs_neg, abs_of_nonneg (squares_nonneg _ _)]
    exact squares_le fun x _ hx => not_lt.1 hx
  · push Not at hex
    rwa [norm_sq_of_lt hne (hsmall.trans hlarge) hex, sub_self, abs_zero]

/-- The norm is not negative. Its square is the sum of all squares, or, if there is a large
component, the sum of the squares of those components that are not small. So it does not depend on
the order and the signs of the components, and is zero only for the zero vector. Its square differs
from the sum of all squares by at most the square of the largest small number for every component,
and only if there is a large one. Nothing is divided by zero, and no root is taken of a negative
number. -/
theorem norm_counts_squares (hne : xs ≠ []) (hsmall : 0 < b.small)
    (hlarge : b.small < b.large / xs.length) :
    let limit := b.large / xs.length
    let total := (xs.map (· ^ 2)).sum
    0 ≤ b.norm xs ∧
    ((∀ x ∈ xs, |x| < limit) → b.norm xs ^ 2 = total) ∧
    ((∃ x ∈ xs, limit ≤ |x|) → b.norm xs ^ 2 = squares (fun x => b.small < |x|) xs) ∧
    (∀ ys : List ℝ, (ys.map fun x => |x|).Perm (xs.map fun x => |x|) → b.norm ys = b.norm xs) ∧
    (b.norm xs = 0 ↔ ∀ x ∈ xs, x = 0) ∧
    |b.norm xs ^ 2 - total| ≤ xs.length * b.small ^ 2 ∧
    (b.norm xs ^ 2 ≠ total → ∃ x ∈ xs, limit ≤ |x|) ∧
    b.norm? xs = some (b.norm xs) := by
  intro limit total
  have hlimit : 0 < limit := hsmall.trans hlarge
  refine ⟨norm_nonneg hne hlimit, norm_sq_of_lt hne hlimit, norm_sq_of_large hne hsmall hlarge, ?_,
    norm_eq_zero_iff hne hsmall hlarge, abs_norm_sq_sub_le hne hsmall hlarge, ?_,
    norm?_eq hne hlimit⟩
  · intro ys hperm
    rw [← norm_map_abs b ys, ← norm_map_abs b xs]
    refine norm_perm (mt List.map_eq_nil_iff.1 hne) hsmall ?_ hperm
    rwa [List.length_map]
  · intro hdiffers
    by_contra hnone
    push Not at hnone
    exact hdiffers (norm_sq_of_lt hne hlimit hnone)

/-- From ten on the components of a vector of three are large here, so the one half does not
count. -/
theorem norm_counts_squares_mixed :
    let b : Bands ℝ := ⟨1, 30⟩
    let xs : List ℝ := [1 / 2, -20, 15]
    xs ≠ [] ∧ 0 < b.small ∧ b.small < b.large / xs.length ∧ b.norm xs = 25 := by
  intro b xs
  have hne : xs ≠ [] := List.cons_ne_nil _ _
  have hsmall : 0 < b.small := one_pos
  have hlarge : b.small < b.large / xs.length := by
    change (1 : ℝ) < 30 / (3 : ℕ)
    norm_num
  obtain ⟨hnonneg, -, hsq, -⟩ := norm_counts_squares hne hsmall hlarge
  have hexists : ∃ x ∈ xs, b.large / xs.length ≤ |x| := by
    refine ⟨15, by simp [xs], ?_⟩
    change (30 : ℝ) / (3 : ℕ) ≤ |15|
    norm_num
  have hsquares : squares (fun x => b.small < |x|) xs = 25 ^ 2 := by
    have hhalf : ¬ (1 : ℝ) < |1 / 2| := by norm_num
    have htwenty : (1 : ℝ) < |-20| := by norm_num
    have hfifteen : (1 : ℝ) < |15| := by norm_num
    simp only [b, xs, squares_cons, squares_nil, if_neg hhalf, if_pos htwenty, if_pos hfifteen]
    norm_num
  exact ⟨hne, hsmall, hlarge,
    (sq_eq_sq₀ hnonneg (by norm_num)).1 ((hsq hexists).trans hsquares)⟩

end Bands

end NonlinearSolve

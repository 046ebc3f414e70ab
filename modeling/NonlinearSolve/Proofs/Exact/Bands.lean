import NonlinearSolve.Proofs.Exact.Arithmetic

/-! # The sums of the bands

In exact arithmetic the three running sums of a norm stand for sums of squares, whatever the order
of the components is and however often a sum has been rescaled (`Bands.represents_sums`). What the
norm makes of them is the root of the large and the middle sum if there is a large component, and of
the middle and the small one if there is none (`Bands.Sums.Represents.norm_sq`). -/

namespace NonlinearSolve

open Scalar

namespace Bands

/-! ### Sums of squares -/

/-- The sum of the squares of the components with the property `p`. -/
noncomputable def squares (p : ℝ → Prop) (xs : List ℝ) : ℝ :=
  open Classical in ((xs.filter p).map (· ^ 2)).sum

section Squares

variable (p q : ℝ → Prop) (x : ℝ) (xs : List ℝ)

/-- The empty list has no squares. -/
@[simp] theorem squares_nil : squares p [] = 0 := rfl

/-- The first entry contributes its square if it is among those summed. -/
theorem squares_cons :
    squares p (x :: xs) = (open Classical in if p x then x ^ 2 else 0) + squares p xs := by
  by_cases hx : p x
  · simp [squares, hx]
  · simp [squares, hx]

/-- The squares of a list with one entry. -/
theorem squares_singleton :
    squares p [x] = open Classical in if p x then x ^ 2 else 0 := by
  rw [squares_cons, squares_nil, add_zero]

/-- A sum of squares is not negative. -/
theorem squares_nonneg : 0 ≤ squares p xs := by
  refine List.sum_nonneg ?_
  intro y hy
  obtain ⟨x, -, rfl⟩ := List.mem_map.1 hy
  exact sq_nonneg x

variable {p q xs}

/-- The squares only depend on which entries are summed. -/
theorem squares_congr (h : ∀ x ∈ xs, p x ↔ q x) : squares p xs = squares q xs := by
  refine congrArg (fun l : List ℝ => (l.map (· ^ 2)).sum) (List.filter_congr ?_)
  intro x hx
  exact decide_eq_decide.2 (h x hx)

/-- The squares with a property are those with another one as well and those without it. -/
theorem squares_eq_add :
    squares p xs = squares (fun x => p x ∧ q x) xs + squares (fun x => p x ∧ ¬ q x) xs := by
  induction xs with
  | nil => exact (add_zero 0).symm
  | cons x xs ih =>
    rw [squares_cons, squares_cons, squares_cons, ih]
    by_cases hp : p x
    · by_cases hq : q x
      · simp [hp, hq, add_assoc]
      · simp [hp, hq, add_left_comm]
    · simp [hp]

/-- There is nothing to sum if no entry is in the band. -/
theorem squares_eq_zero (h : ∀ x ∈ xs, ¬ p x) : squares p xs = 0 := by
  rw [squares_congr (q := fun _ => False) fun x hx => iff_of_false (h x hx) not_false]
  simp [squares]

/-- A square is at most the sum of the squares. -/
theorem sq_le_squares {x : ℝ} (hx : x ∈ xs) (hp : p x) : x ^ 2 ≤ squares p xs := by
  induction xs with
  | nil => exact absurd hx List.not_mem_nil
  | cons y xs ih =>
    rw [squares_cons]
    obtain rfl | hmem := List.mem_cons.1 hx
    · rw [if_pos hp]
      exact le_add_of_nonneg_right (squares_nonneg p xs)
    · refine (ih hmem).trans (le_add_of_nonneg_left ?_)
      split_ifs
      · exact sq_nonneg y
      · exact le_rfl

/-- The order of the entries does not matter. -/
theorem squares_perm {ys : List ℝ} (h : ys.Perm xs) : squares p ys = squares p xs :=
  ((h.filter _).map _).sum_eq

/-- If no component with the property exceeds `c`, then every one of them contributes at most the
square of `c`. -/
theorem squares_le {c : ℝ} (h : ∀ x ∈ xs, p x → |x| ≤ c) : squares p xs ≤ xs.length * c ^ 2 := by
  induction xs with
  | nil => simp
  | cons x xs ih =>
    have hxs := ih fun y hy => h y (List.mem_cons_of_mem x hy)
    have hx : (open Classical in if p x then x ^ 2 else 0) ≤ c ^ 2 := by
      split_ifs with hp
      · rw [← sq_abs]
        exact pow_le_pow_left₀ (abs_nonneg x) (h x List.mem_cons_self hp) 2
      · exact sq_nonneg c
    rw [squares_cons, List.length_cons, Nat.cast_succ, add_mul, one_mul, add_comm]
    exact add_le_add hxs hx

/-- All squares. -/
theorem squares_true (xs : List ℝ) : squares (fun _ => True) xs = (xs.map (· ^ 2)).sum := by
  simp [squares]

end Squares

/-! ### What the sums stand for -/

namespace Sums

/-- The sums stand for the sums of squares `l`, `m` and `k` over the large, the middle and the small
band. -/
structure Represents (s : Sums ℝ) (l m k : ℝ) : Prop where
  large : s.large * s.largeMax ^ 2 = l
  middle : s.middle = m
  small : s.small * s.smallMax ^ 2 = k
  large_nonneg : 0 ≤ s.large
  middle_nonneg : 0 ≤ s.middle
  small_nonneg : 0 ≤ s.small
  largeMax_nonneg : 0 ≤ s.largeMax
  smallMax_nonneg : 0 ≤ s.smallMax
  /-- The maximum of a band is known as soon as something has been counted in it. -/
  largeMax_ne_zero : s.large ≠ 0 → s.largeMax ≠ 0

/-- Before the first entry all three bands are empty. -/
theorem represents_empty : (empty : Sums ℝ).Represents 0 0 0 where
  large := zero_mul _
  middle := rfl
  small := zero_mul _
  large_nonneg := le_rfl
  middle_nonneg := le_rfl
  small_nonneg := le_rfl
  largeMax_nonneg := le_rfl
  smallMax_nonneg := le_rfl
  largeMax_ne_zero h := absurd rfl h

/-- A sum that is rescaled to a new maximum `y` gains the square of `y`. -/
theorem rescale_mul_sq (t c : ℝ) {y : ℝ} (hy : y ≠ 0) :
    (1 + t * square (c / y)) * y ^ 2 = t * c ^ 2 + y ^ 2 := by
  rw [square]
  field_simp
  ring

/-- A sum in units of the maximum `c` that is extended by `y` gains the square of `y`. -/
theorem extend_mul_sq (t y : ℝ) {c : ℝ} (hc : c ≠ 0) :
    (t + square (y / c)) * c ^ 2 = t * c ^ 2 + y ^ 2 := by
  rw [square]
  field_simp

variable {s : Sums ℝ} {l m k y : ℝ}

/-- A large entry adds its square to the large band, also when it is the new maximum. -/
theorem Represents.addLarge (h : s.Represents l m k) (hy : 0 < y) :
    (s.addLarge y).Represents (l + y ^ 2) m k := by
  rw [Sums.addLarge]
  by_cases hmax : s.largeMax < y
  · rw [if_pos hmax]
    exact { h with
      large := by rw [rescale_mul_sq _ _ hy.ne', h.large]
      large_nonneg := add_nonneg zero_le_one (mul_nonneg h.large_nonneg (mul_self_nonneg _))
      largeMax_nonneg := hy.le
      largeMax_ne_zero := fun _ => hy.ne' }
  · have hpos : 0 < s.largeMax := hy.trans_le (not_lt.1 hmax)
    rw [if_neg hmax]
    exact { h with
      large := by rw [extend_mul_sq _ _ hpos.ne', h.large]
      large_nonneg := add_nonneg h.large_nonneg (mul_self_nonneg _)
      largeMax_ne_zero := fun _ => hpos.ne' }

/-- A small entry adds its square to the small band, also when it is zero. -/
theorem Represents.addSmall (h : s.Represents l m k) (hy : 0 ≤ y) :
    (s.addSmall y).Represents l m (k + y ^ 2) := by
  rw [Sums.addSmall]
  by_cases hmax : s.smallMax < y
  · rw [if_pos hmax]
    exact { h with
      small := by rw [rescale_mul_sq _ _ (h.smallMax_nonneg.trans_lt hmax).ne', h.small]
      small_nonneg := add_nonneg zero_le_one (mul_nonneg h.small_nonneg (mul_self_nonneg _))
      smallMax_nonneg := hy }
  · rw [if_neg hmax]
    by_cases hzero : y = 0
    · rw [if_pos ((Exact.beq_iff _ _).2 hzero), hzero, zero_pow two_ne_zero, add_zero]
      exact h
    · have hpos : 0 < s.smallMax := (hy.lt_of_ne' hzero).trans_le (not_lt.1 hmax)
      rw [if_neg (mt (Exact.beq_iff _ _).1 hzero)]
      exact { h with
        small := by rw [extend_mul_sq _ _ hpos.ne', h.small]
        small_nonneg := add_nonneg h.small_nonneg (mul_self_nonneg _) }

/-- An entry between the bands adds its square as it is. -/
theorem Represents.addMiddle (h : s.Represents l m k) (y : ℝ) :
    (s.addMiddle y).Represents l (m + y ^ 2) k :=
  { h with
    middle := by rw [Sums.addMiddle, h.middle, sq]
    middle_nonneg := add_nonneg h.middle_nonneg (mul_self_nonneg y) }

/-- A component is counted in one of the bands with its square. -/
theorem Represents.add (h : s.Represents l m k) (b : Bands ℝ) {limit : ℝ} (hlimit : 0 < limit)
    (x : ℝ) :
    (s.add b limit x).Represents (l + squares (fun x => limit ≤ |x|) [x])
      (m + squares (fun x => ¬ limit ≤ |x| ∧ ¬ |x| ≤ b.small) [x])
      (k + squares (fun x => ¬ limit ≤ |x| ∧ |x| ≤ b.small) [x]) := by
  have hadd : s.add b limit x =
      if limit ≤ |x| then s.addLarge |x| else if |x| ≤ b.small then s.addSmall |x|
      else s.addMiddle |x| := rfl
  rw [hadd]
  simp only [squares_singleton]
  by_cases hlarge : limit ≤ |x|
  · have hlarge' := h.addLarge (hlimit.trans_le hlarge)
    simpa [hlarge] using hlarge'
  · by_cases hsmall : |x| ≤ b.small
    · have hsmall' := h.addSmall (abs_nonneg x)
      simpa [hlarge, hsmall] using hsmall'
    · have hmiddle' := h.addMiddle |x|
      simpa [hlarge, hsmall] using hmiddle'

/-- Counting the components one after the other adds up their squares, band by band. -/
theorem Represents.foldl_add (h : s.Represents l m k) (b : Bands ℝ) {limit : ℝ}
    (hlimit : 0 < limit) (xs : List ℝ) :
    (xs.foldl (Sums.add b limit) s).Represents (l + squares (fun x => limit ≤ |x|) xs)
      (m + squares (fun x => ¬ limit ≤ |x| ∧ ¬ |x| ≤ b.small) xs)
      (k + squares (fun x => ¬ limit ≤ |x| ∧ |x| ≤ b.small) xs) := by
  induction xs generalizing s l m k with
  | nil => simpa using h
  | cons x xs ih =>
    have hxs := ih (h.add b hlimit x)
    simp only [squares_singleton, add_assoc] at hxs
    simpa only [List.foldl_cons, squares_cons] using hxs

/-! ### The norm of the sums -/

/-- The test that a sum is not empty. -/
theorem not_beq_zero (x : ℝ) : (!(x == 0)) = true ↔ x ≠ 0 := by
  rw [Bool.not_eq_true', Exact.beq_eq_false_iff]

/-- The tests of the norm as propositions. -/
theorem norm_eq (s : Sums ℝ) : s.norm =
    if s.large ≠ 0 then s.largeMax * √(s.large + s.middle / s.largeMax / s.largeMax)
    else if s.middle ≠ 0 then
      if s.smallMax ≤ s.middle then
        √(s.middle * (1 + s.smallMax / s.middle * (s.smallMax * s.small)))
      else √(s.smallMax * (s.middle / s.smallMax + s.smallMax * s.small))
    else s.smallMax * √s.small := by
  rw [Sums.norm]
  simp only [not_beq_zero, Exact.sqrt_eq]

/-- The radicand that is used when there are large entries is not negative. -/
theorem Represents.large_radicand_nonneg (h : s.Represents l m k) :
    0 ≤ s.large + s.middle / s.largeMax / s.largeMax :=
  add_nonneg h.large_nonneg
    (div_nonneg (div_nonneg h.middle_nonneg h.largeMax_nonneg) h.largeMax_nonneg)

/-- The radicand that is used when the middle band outweighs the small one is not negative. -/
theorem Represents.middle_radicand_nonneg (h : s.Represents l m k) :
    0 ≤ s.middle * (1 + s.smallMax / s.middle * (s.smallMax * s.small)) :=
  mul_nonneg h.middle_nonneg (add_nonneg zero_le_one
    (mul_nonneg (div_nonneg h.smallMax_nonneg h.middle_nonneg)
      (mul_nonneg h.smallMax_nonneg h.small_nonneg)))

/-- The radicand that is used when the small band outweighs the middle one is not negative. -/
theorem Represents.small_radicand_nonneg (h : s.Represents l m k) :
    0 ≤ s.smallMax * (s.middle / s.smallMax + s.smallMax * s.small) :=
  mul_nonneg h.smallMax_nonneg (add_nonneg (div_nonneg h.middle_nonneg h.smallMax_nonneg)
    (mul_nonneg h.smallMax_nonneg h.small_nonneg))

/-- The norm read from the sums is not negative. -/
theorem Represents.norm_nonneg (h : s.Represents l m k) : 0 ≤ s.norm := by
  rw [norm_eq]
  split_ifs
  · exact mul_nonneg h.largeMax_nonneg (Real.sqrt_nonneg _)
  · exact Real.sqrt_nonneg _
  · exact Real.sqrt_nonneg _
  · exact mul_nonneg h.smallMax_nonneg (Real.sqrt_nonneg _)

/-- Only the sums of two neighbouring bands count: the large and the middle one if there is anything
in the large band, and else the middle and the small one. -/
theorem Represents.norm_sq (h : s.Represents l m k) :
    s.norm ^ 2 = if l ≠ 0 then l + m else m + k := by
  have hl : l ≠ 0 ↔ s.large ≠ 0 := by
    rw [← h.large, mul_ne_zero_iff]
    exact and_iff_left_of_imp fun hne => pow_ne_zero 2 (h.largeMax_ne_zero hne)
  rw [norm_eq]
  simp only [hl]
  split_ifs with hlarge hmiddle hle
  · have hmax := h.largeMax_ne_zero hlarge
    rw [mul_pow, Real.sq_sqrt h.large_radicand_nonneg, ← h.large, ← h.middle]
    field_simp
  · rw [Real.sq_sqrt h.middle_radicand_nonneg, ← h.middle, ← h.small]
    field_simp
  · have hpos : 0 < s.smallMax := h.middle_nonneg.trans_lt (not_le.1 hle)
    rw [Real.sq_sqrt h.small_radicand_nonneg, ← h.middle, ← h.small]
    field_simp
  · rw [mul_pow, Real.sq_sqrt h.small_nonneg, ← h.small, ← h.middle, not_not.1 hmiddle, zero_add,
      mul_comm]

end Sums

/-! ### The sums of a list -/

/-- The sums over a list stand for the squares of its components, band by band. -/
theorem represents_sums (b : Bands ℝ) {xs : List ℝ} (hlimit : 0 < b.large / xs.length) :
    (b.sums xs).Represents (squares (fun x => b.large / xs.length ≤ |x|) xs)
      (squares (fun x => ¬ b.large / xs.length ≤ |x| ∧ ¬ |x| ≤ b.small) xs)
      (squares (fun x => ¬ b.large / xs.length ≤ |x| ∧ |x| ≤ b.small) xs) := by
  have hsums := Sums.represents_empty.foldl_add b hlimit xs
  simp only [zero_add] at hsums
  exact hsums

end Bands

end NonlinearSolve

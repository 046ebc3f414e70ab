import NonlinearSolve.Proofs.Checked.Operations
import NonlinearSolve.Proofs.Exact.Bands

/-! # The checked norm

The norm in bands written with checked operations. A component is divided by the maximum of its
band, or the maximum by the component, and the maximum is not zero if the component is smaller; in
the end a sum is divided by a maximum or a maximum by a sum that have been tested. So the
computation comes to an end if the limits of the middle band are in order (`Bands.norm?_eq`). -/

namespace NonlinearSolve

open Scalar

namespace Bands

/-! ### Algorithms -/

section Algorithms

variable {α : Type} [Scalar α]

/-- `addLarge` with checked operations. -/
def Sums.addLarge? (s : Sums α) (y : α) : Option (Sums α) :=
  if s.largeMax < y then do
    let t ← div? s.largeMax y
    return { s with large := 1 + s.large * square t, largeMax := y }
  else do
    let t ← div? y s.largeMax
    return { s with large := s.large + square t }

/-- `addSmall` with checked operations. -/
def Sums.addSmall? (s : Sums α) (y : α) : Option (Sums α) :=
  if s.smallMax < y then do
    let t ← div? s.smallMax y
    return { s with small := 1 + s.small * square t, smallMax := y }
  else if y == 0 then
    some s
  else do
    let t ← div? y s.smallMax
    return { s with small := s.small + square t }

/-- `add` with checked operations. -/
def Sums.add? (b : Bands α) (limit : α) (s : Sums α) (x : α) : Option (Sums α) :=
  let y := mag x
  if limit ≤ y then s.addLarge? y
  else if y ≤ b.small then s.addSmall? y
  else some (s.addMiddle y)

/-- `Sums.norm` with checked operations. -/
def Sums.norm? (s : Sums α) : Option α :=
  if !(s.large == 0) then do
    let t ← div? s.middle s.largeMax
    let u ← div? t s.largeMax
    let root ← sqrt? (s.large + u)
    return s.largeMax * root
  else if !(s.middle == 0) then
    if s.smallMax ≤ s.middle then do
      let t ← div? s.smallMax s.middle
      sqrt? (s.middle * (1 + t * (s.smallMax * s.small)))
    else do
      let t ← div? s.middle s.smallMax
      sqrt? (s.smallMax * (t + s.smallMax * s.small))
  else do
    let root ← sqrt? s.small
    return s.smallMax * root

/-- `sums` with checked operations. -/
def sums? (b : Bands α) (xs : List α) : Option (Sums α) := do
  let limit ← div? b.large (xs.length : α)
  xs.foldlM (Sums.add? b limit) .empty

/-- `norm` with checked operations. -/
def norm? (b : Bands α) (xs : List α) : Option α :=
  match xs with
  | [] => some 0
  | _ => do
    let s ← b.sums? xs
    s.norm?

end Algorithms

/-! ### The sums -/

namespace Sums

variable {s : Sums ℝ} {l m k y : ℝ}

/-- Adding a positive large entry divides by the largest entry so far or by the new one. -/
theorem addLarge?_eq (s : Sums ℝ) (hy : 0 < y) :
    s.addLarge? y = some (s.addLarge y) := by
  rw [addLarge?, Sums.addLarge]
  by_cases hmax : s.largeMax < y
  · rw [if_pos hmax, if_pos hmax, div?_eq _ hy.ne']
    rfl
  · rw [if_neg hmax, if_neg hmax, div?_eq _ (hy.trans_le (not_lt.1 hmax)).ne']
    rfl

/-- Adding a small entry is checked: a zero entry is skipped before anything is divided by it. -/
theorem Represents.addSmall?_eq (h : s.Represents l m k) (hy : 0 ≤ y) :
    s.addSmall? y = some (s.addSmall y) := by
  rw [addSmall?, Sums.addSmall]
  by_cases hmax : s.smallMax < y
  · rw [if_pos hmax, if_pos hmax, div?_eq _ (h.smallMax_nonneg.trans_lt hmax).ne']
    rfl
  · rw [if_neg hmax, if_neg hmax]
    by_cases hzero : y = 0
    · rw [if_pos ((Exact.beq_iff _ _).2 hzero), if_pos ((Exact.beq_iff _ _).2 hzero)]
    · have hpos : 0 < s.smallMax := (hy.lt_of_ne' hzero).trans_le (not_lt.1 hmax)
      have hne : ¬ (y == 0) = true := mt (Exact.beq_iff _ _).1 hzero
      rw [if_neg hne, if_neg hne, div?_eq _ hpos.ne']
      rfl

/-- Adding an entry of any size is checked. -/
theorem Represents.add?_eq (h : s.Represents l m k) (b : Bands ℝ) {limit : ℝ} (hlimit : 0 < limit)
    (x : ℝ) : s.add? b limit x = some (s.add b limit x) := by
  rw [add?, Sums.add, apply_ite some, apply_ite some]
  split_ifs with hlarge
  · exact s.addLarge?_eq (hlimit.trans_le hlarge)
  · exact h.addSmall?_eq (abs_nonneg x)
  · rfl

/-- The sums of a whole list are checked. -/
theorem Represents.foldlM_add?_eq (h : s.Represents l m k) (b : Bands ℝ) {limit : ℝ}
    (hlimit : 0 < limit) (xs : List ℝ) :
    xs.foldlM (Sums.add? b limit) s = some (xs.foldl (Sums.add b limit) s) := by
  induction xs generalizing s l m k with
  | nil => rfl
  | cons x xs ih =>
    rw [List.foldlM_cons, h.add?_eq b hlimit, List.foldl_cons]
    exact ih (h.add b hlimit x)

/-! ### The norm -/

/-- The norm is read from the sums by roots of nonnegative numbers. -/
theorem Represents.norm?_eq (h : s.Represents l m k) : s.norm? = some s.norm := by
  rw [norm?, norm_eq]
  simp only [not_beq_zero, apply_ite some]
  split_ifs with hlarge hmiddle hle
  · have hmax := h.largeMax_ne_zero hlarge
    simp only [div?_eq _ hmax, sqrt?_eq h.large_radicand_nonneg, Option.bind_eq_bind,
      Option.bind_some]
    rfl
  · simp only [div?_eq _ hmiddle, sqrt?_eq h.middle_radicand_nonneg, Option.bind_eq_bind,
      Option.bind_some]
    rfl
  · have hpos : 0 < s.smallMax := h.middle_nonneg.trans_lt (not_le.1 hle)
    simp only [div?_eq _ hpos.ne', sqrt?_eq h.small_radicand_nonneg, Option.bind_eq_bind,
      Option.bind_some]
    rfl
  · rw [sqrt?_eq h.small_nonneg]
    rfl

end Sums

/-- The computation of a norm never fails. -/
theorem norm?_eq {b : Bands ℝ} {xs : List ℝ} (hne : xs ≠ [])
    (hlimit : 0 < b.large / xs.length) : b.norm? xs = some (b.norm xs) := by
  have hlength : (xs.length : ℝ) ≠ 0 := Nat.cast_ne_zero.2 (mt List.length_eq_zero_iff.1 hne)
  have hsums : b.sums? xs = some (b.sums xs) := by
    rw [sums?, div?_eq _ hlength]
    exact Sums.represents_empty.foldlM_add?_eq b hlimit xs
  obtain ⟨x, xs, rfl⟩ := List.exists_cons_of_ne_nil hne
  change (b.sums? (x :: xs)).bind Sums.norm? = _
  rw [hsums]
  exact (represents_sums b hlimit).norm?_eq

end Bands

end NonlinearSolve

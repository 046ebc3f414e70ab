import NonlinearSolve.Norm

/-! # Undefined numbers

Rounded arithmetic has undefined numbers, such as the quotient of two zeros. What the library relies
on when they occur are two sets of laws. `Scalar.PropagatesUndefined` says that operations on an
undefined number are undefined and that comparisons with it fail. `Scalar.KeepsSigns` adds the rules
for signs, which hold up to undefined results: a quotient of two positive numbers is not negative,
but if both are infinite it is undefined.

The first set suffices to see that the norm of a vector with an undefined component is undefined
(`Bands.isUndefined_norm`). No component is tested for that. -/

namespace NonlinearSolve

namespace Scalar

/-- An undefined number is equal to nothing, itself included. -/
def IsUndefined {α : Type} [Scalar α] (x : α) : Prop := (x == x) = false

/-- Operations on undefined numbers are undefined, and comparisons with undefined numbers fail. -/
class PropagatesUndefined (α : Type) [Scalar α] : Prop where
  add (x y : α) : IsUndefined x ∨ IsUndefined y → IsUndefined (x + y)
  sub (x y : α) : IsUndefined x ∨ IsUndefined y → IsUndefined (x - y)
  mul (x y : α) : IsUndefined x ∨ IsUndefined y → IsUndefined (x * y)
  div (x y : α) : IsUndefined x ∨ IsUndefined y → IsUndefined (x / y)
  sqrt (x : α) : IsUndefined x → IsUndefined (sqrt x)
  mag (x : α) : IsUndefined x → IsUndefined (mag x)
  not_lt (x y : α) : IsUndefined x ∨ IsUndefined y → ¬ x < y
  not_le (x y : α) : IsUndefined x ∨ IsUndefined y → ¬ x ≤ y
  beq (x y : α) : IsUndefined x ∨ IsUndefined y → (x == y) = false

/-- Squares, sums and quotients have the signs that they should have, unless they are undefined.
Numbers on different sides of zero are in order, and so are zero and the thresholds of the
methods. -/
class KeepsSigns (α : Type) [Scalar α] : Prop extends PropagatesUndefined α where
  square_nonneg (x : α) : IsUndefined (x * x) ∨ 0 ≤ x * x
  add_nonneg (x y : α) : 0 ≤ x → 0 ≤ y → IsUndefined (x + y) ∨ 0 ≤ x + y
  div_nonneg (x y : α) : 0 ≤ x → 0 < y → IsUndefined (x / y) ∨ 0 ≤ x / y
  div_nonpos (x y : α) : x ≤ 0 → 0 < y → IsUndefined (x / y) ∨ x / y ≤ 0
  pos_of_nonneg (x : α) : 0 ≤ x → (x == 0) = false → 0 < x
  not_le_of_nonpos (x y : α) : x ≤ 0 → 0 < y → ¬ y ≤ x
  zero_nonpos : (0 : α) ≤ 0
  neg_one_nonpos : (-1 : α) ≤ 0
  half_pos : (0 : α) < 0.5
  threshold_pos : (0 : α) < 0.0001

end Scalar

/-! ### The norm -/

namespace Bands

open Scalar

variable {α : Type} [Scalar α] [PropagatesUndefined α] {b : Bands α} {limit x : α} {s : Sums α}

/-- An undefined component is neither large nor small, so it counts in the middle band. -/
theorem Sums.isUndefined_add (b : Bands α) (limit : α) (s : Sums α) (hx : IsUndefined x) :
    IsUndefined (s.add b limit x).middle := by
  have hmag : IsUndefined (mag x) := PropagatesUndefined.mag x hx
  rw [add, if_neg (PropagatesUndefined.not_le _ _ (.inr hmag)),
    if_neg (PropagatesUndefined.not_le _ _ (.inl hmag))]
  exact PropagatesUndefined.add _ _ (.inr (PropagatesUndefined.mul _ _ (.inl hmag)))

/-- Once the sum of the middle band is undefined, it remains so. -/
theorem Sums.isUndefined_add_of_middle (b : Bands α) (limit x : α) (hs : IsUndefined s.middle) :
    IsUndefined (s.add b limit x).middle := by
  rw [add]
  split
  · rw [addLarge]
    split <;> exact hs
  · split
    · rw [addSmall]
      split
      · exact hs
      · split <;> exact hs
    · exact PropagatesUndefined.add _ _ (.inl hs)

/-- The sum of the middle band is undefined as soon as one component is. -/
theorem isUndefined_foldl {xs : List α} (s : Sums α)
    (h : IsUndefined s.middle ∨ ∃ x ∈ xs, IsUndefined x) :
    IsUndefined (xs.foldl (Sums.add b limit) s).middle := by
  induction xs generalizing s with
  | nil =>
    obtain hs | ⟨x, hx, -⟩ := h
    · exact hs
    · exact absurd hx List.not_mem_nil
  | cons y ys ih =>
    refine ih _ ?_
    obtain hs | ⟨x, hx, hundef⟩ := h
    · exact .inl (Sums.isUndefined_add_of_middle b limit y hs)
    · obtain rfl | hmem := List.mem_cons.1 hx
      · exact .inl (Sums.isUndefined_add b limit s hundef)
      · exact .inr ⟨x, hmem, hundef⟩

/-- Whichever of its branches is taken, the norm uses the sum of the middle band if that is
undefined. -/
theorem Sums.isUndefined_norm (hs : IsUndefined s.middle) : IsUndefined s.norm := by
  have hzero : (!(s.middle == 0)) = true := by
    rw [PropagatesUndefined.beq _ _ (.inl hs)]
    rfl
  rw [norm, if_pos hzero, if_neg (PropagatesUndefined.not_le _ _ (.inr hs))]
  split
  · have hquotient := PropagatesUndefined.div _ s.largeMax
      (.inl (PropagatesUndefined.div _ s.largeMax (.inl hs)))
    have hroot := PropagatesUndefined.sqrt _ (PropagatesUndefined.add s.large _ (.inr hquotient))
    exact PropagatesUndefined.mul _ _ (.inr hroot)
  · have hquotient := PropagatesUndefined.div _ s.smallMax (.inl hs)
    have hsum := PropagatesUndefined.add _ (s.smallMax * s.small) (.inl hquotient)
    exact PropagatesUndefined.sqrt _ (PropagatesUndefined.mul _ _ (.inr hsum))

/-- The norm of a vector with an undefined component is undefined, whatever the limits of the bands
are. -/
theorem isUndefined_norm (b : Bands α) {xs : List α} (h : ∃ x ∈ xs, IsUndefined x) :
    IsUndefined (b.norm xs) := by
  cases xs with
  | nil =>
    obtain ⟨x, hx, -⟩ := h
    exact absurd hx List.not_mem_nil
  | cons y ys => exact Sums.isUndefined_norm (isUndefined_foldl _ (.inr h))

end Bands

end NonlinearSolve

import NonlinearSolve.Linear.Vec

/-! # The Euclidean norm in bands

Squaring a very small or a very large number leaves the range of binary64 although the norm of the
vector lies within it. `Bands.norm` therefore sorts the magnitudes into three bands. The middle band
is squared and summed as it is; the small and the large band are summed relative to the largest
magnitude met so far, and the running sum is rescaled whenever that maximum grows. `Bands.Sums.norm`
joins the three sums. A small band next to a large one is too small to count and is left out. -/

namespace NonlinearSolve

open Scalar

/-- The limits of the middle band: magnitudes of at most `small` are small ones, and those of at
least `large / n` are large ones in a vector of length `n`. -/
structure Bands (α : Type) where
  /-- The largest small magnitude. -/
  small : α
  /-- The magnitude from which on a single square may overflow. -/
  large : α

namespace Bands

variable {α : Type} [Scalar α]

/-- The sums of squares of the three bands, `large` and `small` being relative to the largest
magnitude of their band. -/
structure Sums (α : Type) where
  /-- The sum over the large band, in units of `largeMax ^ 2`. -/
  large : α
  /-- The sum over the middle band. -/
  middle : α
  /-- The sum over the small band, in units of `smallMax ^ 2`. -/
  small : α
  /-- The largest magnitude of the large band. -/
  largeMax : α
  /-- The largest magnitude of the small band. -/
  smallMax : α

/-- The sums over no component. -/
def Sums.empty : Sums α := ⟨0, 0, 0, 0, 0⟩

/-- Counts the magnitude `y` in the large band. -/
def Sums.addLarge (s : Sums α) (y : α) : Sums α :=
  if s.largeMax < y then
    { s with large := 1 + s.large * square (s.largeMax / y), largeMax := y }
  else
    { s with large := s.large + square (y / s.largeMax) }

/-- Counts the magnitude `y` in the small band. A zero changes nothing. -/
def Sums.addSmall (s : Sums α) (y : α) : Sums α :=
  if s.smallMax < y then
    { s with small := 1 + s.small * square (s.smallMax / y), smallMax := y }
  else if y == 0 then
    s
  else
    { s with small := s.small + square (y / s.smallMax) }

/-- Counts the magnitude `y` in the middle band. -/
def Sums.addMiddle (s : Sums α) (y : α) : Sums α :=
  { s with middle := s.middle + y * y }

/-- Counts the component `x` in the band of its magnitude, `limit` being the least large one. -/
def Sums.add (b : Bands α) (limit : α) (s : Sums α) (x : α) : Sums α :=
  let y := mag x
  if limit ≤ y then s.addLarge y
  else if y ≤ b.small then s.addSmall y
  else s.addMiddle y

/-- The norm that belongs to the three sums. -/
def Sums.norm (s : Sums α) : α :=
  if !(s.large == 0) then
    s.largeMax * sqrt (s.large + s.middle / s.largeMax / s.largeMax)
  else if !(s.middle == 0) then
    if s.smallMax ≤ s.middle then
      sqrt (s.middle * (1 + s.smallMax / s.middle * (s.smallMax * s.small)))
    else
      sqrt (s.smallMax * (s.middle / s.smallMax + s.smallMax * s.small))
  else
    s.smallMax * sqrt s.small

/-- The three sums over the components `xs`. -/
def sums (b : Bands α) (xs : List α) : Sums α :=
  xs.foldl (Sums.add b (b.large / (xs.length : α))) .empty

/-- The Euclidean norm of the components `xs`. -/
def norm (b : Bands α) (xs : List α) : α :=
  match xs with
  | [] => 0
  | _ => (b.sums xs).norm

end Bands

end NonlinearSolve

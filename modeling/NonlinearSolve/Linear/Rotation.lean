import NonlinearSolve.Numerics

/-! # Plane rotations

A rotation `(cos, sin)` acts on a pair of numbers. `Rotation.annihilating a b` turns the pair
`(a, b)` into `(± √(a² + b²), 0)`; such a rotation can be kept as one number, its code, and
recovered from it. -/

namespace NonlinearSolve

open Scalar

/-- A rotation of the plane. -/
structure Rotation (α : Type) where
  /-- The cosine of the angle. -/
  cos : α
  /-- The sine of the angle. -/
  sin : α

namespace Rotation

variable {α : Type} [Scalar α]

/-- The rotation by nothing. -/
def identity : Rotation α := ⟨1, 0⟩

/-- The rotation that takes the second of the numbers `a`, `b` to zero, where `b` is not zero. The
quotient is formed with the larger magnitude below, so its square does not overflow. -/
def annihilating (a b : α) : Rotation α :=
  if mag a < mag b then
    let cotan := a / b
    let sin := 0.5 / sqrt (0.25 + 0.25 * cotan * cotan)
    ⟨sin * cotan, sin⟩
  else
    let tan := b / a
    let cos := 0.5 / sqrt (0.25 + 0.25 * tan * tan)
    ⟨cos, cos * tan⟩

/-- The rotated pair. -/
def apply (g : Rotation α) (x y : α) : α × α :=
  (g.cos * x + g.sin * y, -g.sin * x + g.cos * y)

/-- The pair rotated in the opposite sense. -/
def applyInverse (g : Rotation α) (x y : α) : α × α :=
  (g.cos * x - g.sin * y, g.sin * x + g.cos * y)

/-! ### Codes -/

/-- The code of `annihilating a b`: the smaller of sine and cosine tells the rotation, the sine as
itself and the cosine as its reciprocal, which exceeds one. A cosine without a reciprocal counts as
zero, and its code is the sine one. -/
def encode (nm : Numerics α) (a b : α) : α :=
  let g := annihilating a b
  if mag a < mag b then
    if nm.invertible g.cos then 1 / g.cos else 1
  else
    g.sin

/-- The rotation with code `t`. Zero is the code of the identity. -/
def decode (t : α) : Rotation α :=
  if 1 < mag t then
    let cos := 1 / t
    ⟨cos, sqrt (1 - cos * cos)⟩
  else
    ⟨sqrt (1 - t * t), t⟩

end Rotation

end NonlinearSolve

import NonlinearSolve.Linear.DampedSolve
import NonlinearSolve.Linear.RowUpdate
import NonlinearSolve.Proofs.Checked.Operations
import NonlinearSolve.Proofs.Linear.Substitution

/-! # Checked rotations

Row updates and damped systems written with checked operations. In exact arithmetic both always come
to an end: a rotation is made only for an entry that is not zero, and back substitution begins above
the first zero on the diagonal. -/

namespace NonlinearSolve

open Scalar

/-! ### Algorithms -/

section Algorithms

variable {α : Type} [Scalar α] {n : Nat}

/-- `Rotation.annihilating` with checked operations. -/
def Rotation.annihilating? (a b : α) : Option (Rotation α) :=
  if mag a < mag b then do
    let cotan ← div? a b
    let root ← sqrt? (0.25 + 0.25 * cotan * cotan)
    let sin ← div? 0.5 root
    return ⟨sin * cotan, sin⟩
  else do
    let tan ← div? b a
    let root ← sqrt? (0.25 + 0.25 * tan * tan)
    let cos ← div? 0.5 root
    return ⟨cos, cos * tan⟩

/-- `RowUpdate.step` with checked operations. -/
def RowUpdate.step? (s : RowUpdate α n) (j : Fin n) : Option (RowUpdate α n) := do
  let wj := s.row j
  let done := wj == 0
  let g ← if done then some Rotation.identity else Rotation.annihilating? (s.r j j) wj
  let pairs := Vec.of fun k =>
    if j < k ∨ (k = j ∧ !done) then g.apply (s.r j k) (s.row k) else (s.r j k, s.row k)
  let right := if done then (s.b j, s.residue) else g.apply (s.b j) s.residue
  return {
    r := s.r.setRow j (pairs.map Prod.fst)
    row := pairs.map Prod.snd
    b := s.b.set j right.1
    residue := right.2
    rotations := s.rotations.set j g }

/-- `rowUpdate` with checked operations. -/
def rowUpdate? (r : Mat α n n) (w b : Vec α n) (residue : α) : Option (RowUpdate α n) :=
  Fin.foldlM n RowUpdate.step? (.start r b w residue)

namespace DampedSolve

/-- `rotate` with checked operations. -/
def rotate? (s : State α n) (k : Fin n) : Option (State α n) :=
  if s.sdiag k == 0 then some s
  else do
    let g ← Rotation.annihilating? (s.r k k) (s.sdiag k)
    let right := g.apply (s.rhs k) s.residue
    return { s with
      r := s.r.setCol k <|
        Vec.of fun i => if k ≤ i then (g.apply (s.r i k) (s.sdiag i)).1 else s.r i k
      sdiag := Vec.of fun i => if k < i then (g.apply (s.r i k) (s.sdiag i)).2 else s.sdiag i
      rhs := s.rhs.set k right.1
      residue := right.2 }

/-- `addRow` with checked operations. -/
def addRow? (s : State α n) (j : Fin n) (d : α) : Option (State α n) :=
  if d == 0 then some s
  else
    Fin.foldlM n (fun s k => if j ≤ k then rotate? s k else some s)
      { s with
        sdiag := Vec.of fun i => if i < j then s.sdiag i else if i = j then d else 0
        residue := 0 }

/-- `eliminate` with checked operations. -/
def eliminate? (r : Mat α n n) (order : Vec (Fin n) n) (diag rhs : Vec α n) : Option (State α n) :=
  Fin.foldlM n (fun s j => do return settle (← addRow? s j (diag (order j))) j) (start r rhs)

/-- `backSubstitute` with checked operations. -/
def backSubstitute? (lower : Mat α n n) (sdiag : Vec α n) (rank : Nat) (w : Vec α n) :
    Option (Vec α n) :=
  Fin.foldrM n (fun j z => do
    let t ←
      if j.val < rank then
        div? (z j - sumWhere (fun i => j < i ∧ i.val < rank) (fun i => lower i j * z i)) (sdiag j)
      else some 0
    return z.set j t) w

end DampedSolve

/-- `dampedSolve` with checked operations. -/
def dampedSolve? (r : Mat α n n) (order : Vec (Fin n) n) (diag rhs : Vec α n) :
    Option (DampedSolution α n) := do
  let s ← DampedSolve.eliminate? r order diag rhs
  let z ← DampedSolve.backSubstitute? s.r s.sdiag s.sdiag.firstZero s.rhs
  return { x := Vec.scatter order z, sdiag := s.sdiag, r := s.r }

end Algorithms

/-! ### Rotations -/

variable {n : Nat}

/-- The quotient of a rotation has the larger magnitude below, and the root is at least one half. -/
theorem Rotation.annihilating?_eq (a : ℝ) {b : ℝ} (hb : b ≠ 0) :
    annihilating? a b = some (annihilating a b) := by
  have hne : ∀ t : ℝ, sqrt (0.25 + 0.25 * t * t) ≠ 0 :=
    fun t => (Real.sqrt_pos.2 (radicand_pos t)).ne'
  unfold annihilating? annihilating
  by_cases hlt : mag a < mag b
  · simp only [if_pos hlt, div?_eq _ hb, sqrt?_eq (radicand_pos _).le, div?_eq _ (hne _),
      Option.bind_eq_bind, Option.bind_some, Option.pure_def]
  · have ha : a ≠ 0 := by
      rintro rfl
      rw [Exact.mag_eq, Exact.mag_eq, abs_zero, abs_pos] at hlt
      exact hlt hb
    simp only [if_neg hlt, div?_eq _ ha, sqrt?_eq (radicand_pos _).le, div?_eq _ (hne _),
      Option.bind_eq_bind, Option.bind_some, Option.pure_def]

/-! ### Row updates -/

/-- An entry that is zero already is left alone. -/
theorem RowUpdate.step?_eq (s : RowUpdate ℝ n) (j : Fin n) : s.step? j = some (s.step j) := by
  unfold step? step
  by_cases hzero : s.row j == 0
  · simp only [if_pos hzero, Option.bind_eq_bind, Option.bind_some, Option.pure_def]
  · simp only [if_neg hzero, Rotation.annihilating?_eq _ (mt (Exact.beq_iff _ _).2 hzero),
      Option.bind_eq_bind, Option.bind_some, Option.pure_def]

/-- Folding a row is checked: a rotation divides by the larger of its two entries. -/
@[simp] theorem rowUpdate?_eq (r : Mat ℝ n n) (w b : Vec ℝ n) (residue : ℝ) :
    rowUpdate? r w b residue = some (rowUpdate r w b residue) :=
  foldlM_eq RowUpdate.step?_eq _

/-! ### Damped systems -/

namespace DampedSolve

/-- One rotation of the damped solve is checked. -/
theorem rotate?_eq (s : State ℝ n) (k : Fin n) : rotate? s k = some (rotate s k) := by
  unfold rotate? rotate
  by_cases hzero : s.sdiag k == 0
  · rw [if_pos hzero, if_pos hzero]
  · rw [if_neg hzero, if_neg hzero,
      Rotation.annihilating?_eq _ (mt (Exact.beq_iff _ _).2 hzero)]
    rfl

/-- Rotating one row of the scaling into the triangle is checked. -/
theorem addRow?_eq (s : State ℝ n) (j : Fin n) (d : ℝ) : addRow? s j d = some (addRow s j d) := by
  unfold addRow? addRow
  split
  · rfl
  · refine foldlM_eq ?_ _
    intro s k
    rw [rotate?_eq]
    exact (apply_ite some _ _ _).symm

/-- Building the damped triangle is checked for any factor and any scaling. -/
theorem eliminate?_eq (r : Mat ℝ n n) (order : Vec (Fin n) n) (diag rhs : Vec ℝ n) :
    eliminate? r order diag rhs = some (eliminate r order diag rhs) := by
  refine foldlM_eq ?_ _
  intro s j
  rw [addRow?_eq]
  rfl

/-- Only columns before the rank are solved for. -/
theorem backSubstitute?_eq (lower : Mat ℝ n n) {sdiag : Vec ℝ n} {rank : Nat}
    (hdiag : ∀ j : Fin n, j.val < rank → sdiag j ≠ 0) (w : Vec ℝ n) :
    backSubstitute? lower sdiag rank w = some (backSubstitute lower sdiag rank w) := by
  refine foldrM_eq ?_ w
  intro j z
  by_cases hj : j.val < rank
  · simp only [if_pos hj, div?_eq _ (hdiag j hj), Option.bind_eq_bind, Option.bind_some,
      Option.pure_def]
  · simp only [if_neg hj, Option.bind_eq_bind, Option.bind_some, Option.pure_def]

end DampedSolve

/-- In exact arithmetic every damped system has a solution, also if it is singular. -/
@[simp] theorem dampedSolve?_eq (r : Mat ℝ n n) (order : Vec (Fin n) n) (diag rhs : Vec ℝ n) :
    dampedSolve? r order diag rhs = some (dampedSolve r order diag rhs) := by
  unfold dampedSolve?
  simp only [DampedSolve.eliminate?_eq, Option.bind_eq_bind, Option.bind_some,
    DampedSolve.backSubstitute?_eq _ fun _ => Vec.ne_zero_of_lt_firstZero]
  rfl

end NonlinearSolve

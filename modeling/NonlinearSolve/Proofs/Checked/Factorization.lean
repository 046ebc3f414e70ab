import NonlinearSolve.Proofs.Checked.Operations
import NonlinearSolve.Proofs.Linear.Pivoting

/-! # Checked factorization

The factorization of a matrix written with checked operations, and the proof that in exact
arithmetic it always comes to an end (`QR.factor?_eq`). A column is divided by its norm and its
reflection by the pivot of the reflector, and neither is zero if there is anything to eliminate. The
downdate of a norm divides by the reference of the column, which is zero only if nothing of the
column is left (`Elimination.KeepsReferences`). -/

namespace NonlinearSolve

open Scalar

/-! ### Algorithms -/

section Algorithms

variable {α : Type} [Scalar α] {m n : Nat}

namespace Householder

/-- `reflect` with checked operations. -/
def reflect? (w : Vec α m) (k : Fin m) (c : Vec α m) : Option (Vec α m) := do
  let t ← div? (sumWhere (k ≤ ·) fun i => w i * c i) (w k)
  return Vec.of fun i => if k ≤ i then c i - t * w i else c i

/-- `applyTranspose` with checked operations. -/
def applyTranspose? (a : Mat α m n) (b : Vec α m) : Option (Vec α m) :=
  Fin.foldlM n (fun b j =>
    if h : j.val < m then
      if a ⟨j, h⟩ j == 0 then some b else reflect? (a.col j) ⟨j, h⟩ b
    else some b) b

end Householder

namespace Elimination

/-- `reflector` with checked operations. -/
def reflector? (c : Vec α m) (i : Fin m) (scale : α) : Option (Vec α m) :=
  Vec.of? fun r =>
    if r = i then do
      let t ← div? (c r) scale
      return t + 1
    else if i < r then div? (c r) scale
    else some (c r)

/-- `downdate` with checked operations. -/
def downdate? (nm : Numerics α) (c : Vec α m) (i : Fin m) (norm reference : α) :
    Option (α × α) :=
  if norm == 0 then some (norm, reference)
  else do
    let t ← div? (c i) norm
    let root ← sqrt? (maxNum 0 (1 - t * t))
    let rest := norm * root
    let share ← div? rest reference
    if 0.05 * square share ≤ nm.epsilon then
      let fresh := nm.tailNorm c (i + 1)
      return (fresh, fresh)
    else return (rest, reference)

/-- `reduce` with checked operations. -/
def reduce? (nm : Numerics α) (pivot : Bool) (e : Elimination α m n) (i : Fin m) (j : Fin n) :
    Option (Elimination α m n) :=
  let norm := nm.tailNorm (e.a.col j) i
  if norm == 0 then
    some { e with rdiag := e.rdiag.set j (-norm) }
  else do
    let scale := if e.a i j < 0 then -norm else norm
    let w ← reflector? (e.a.col j) i scale
    let a ← Mat.ofCols? fun k =>
      if k = j then some w
      else if j < k then Householder.reflect? w i (e.a.col k)
      else some (e.a.col k)
    let norms ← Vec.of? fun k =>
      if j < k ∧ pivot then downdate? nm (a.col k) i (e.rdiag k) (e.reference k)
      else some (e.rdiag k, e.reference k)
    return { e with
      a := a
      rdiag := (norms.map Prod.fst).set j (-scale)
      reference := norms.map Prod.snd }

/-- `step` with checked operations. -/
def step? (nm : Numerics α) (pivot : Bool) (e : Elimination α m n) (i : Fin m) (j : Fin n) :
    Option (Elimination α m n) :=
  if pivot then (e.exchange j (e.pivotColumn j)).reduce? nm pivot i j
  else e.reduce? nm pivot i j

/-- `after` with checked operations. -/
def after? (nm : Numerics α) (pivot : Bool) (a : Mat α m n) : Nat → Option (Elimination α m n)
  | 0 => some (start nm a)
  | k + 1 => do
    let e ← after? nm pivot a k
    if hm : k < m then
      if hn : k < n then e.step? nm pivot ⟨k, hm⟩ ⟨k, hn⟩ else return e
    else return e

end Elimination

/-- `QR.factor` with checked operations. -/
def QR.factor? (nm : Numerics α) (pivot : Bool) (a : Mat α m n) : Option (QR α m n) :=
  (Elimination.after? nm pivot a (min m n)).map Elimination.toQR

end Algorithms

/-! ### Reflections -/

variable {m n : Nat} {ε τ : ℝ} {z : Bool}

namespace Householder

/-- A reflection divides by the pivot entry of its vector. -/
theorem reflect?_eq {w : Vec ℝ m} {k : Fin m} (hw : w k ≠ 0) (c : Vec ℝ m) :
    reflect? w k c = some (reflect w k c) := by
  unfold reflect?
  rw [div?_eq _ hw]
  rfl

/-- A reflection whose pivot is zero is left out. -/
@[simp] theorem applyTranspose?_eq (a : Mat ℝ m n) (b : Vec ℝ m) :
    applyTranspose? a b = some (applyTranspose a b) := by
  refine foldlM_eq ?_ b
  intro b j
  split
  · next hj =>
    split
    · rfl
    · next hpivot => exact reflect?_eq (mt (Exact.beq_iff _ _).2 hpivot) b
  · rfl

end Householder

/-! ### The factorization -/

namespace Elimination

/-- Building a reflection divides by the scale of the column. -/
theorem reflector?_eq (c : Vec ℝ m) (i : Fin m) {scale : ℝ} (hscale : scale ≠ 0) :
    reflector? c i scale = some (reflector c i scale) := by
  refine Vec.of?_eq ?_
  intro r
  simp only [div?_eq _ hscale]
  split
  · rfl
  · split <;> rfl

/-- Downdating a norm divides by that norm and by the reference it was last computed from. -/
theorem downdate?_eq (nm : Numerics ℝ) (c : Vec ℝ m) (i : Fin m) {norm reference : ℝ}
    (href : norm ≠ 0 → reference ≠ 0) :
    downdate? nm c i norm reference = some (downdate nm c i norm reference) := by
  unfold downdate? downdate
  by_cases hnorm : norm = 0
  · have hbeq := (Exact.beq_iff norm 0).2 hnorm
    rw [if_pos hbeq, if_pos hbeq]
  · have hbeq := mt (Exact.beq_iff norm 0).1 hnorm
    have hroot : 0 ≤ maxNum 0 (1 - c i / norm * (c i / norm)) := by
      rw [Exact.maxNum_eq]
      exact le_max_left _ _
    simp only [if_neg hbeq, div?_eq _ hnorm, sqrt?_eq hroot, div?_eq _ (href hnorm),
      Option.bind_eq_bind, Option.bind_some]
    split <;> rfl

/-- The reference of a column still to come is zero only if nothing is left of that column. -/
def KeepsReferences (e : Elimination ℝ m n) (k : Nat) : Prop :=
  ∀ l : Fin n, k ≤ l.val → e.rdiag l ≠ 0 → e.reference l ≠ 0

/-- Each column starts with its own norm as the reference. -/
theorem keepsReferences_start (nm : Numerics ℝ) (a : Mat ℝ m n) :
    KeepsReferences (start nm a) 0 := fun _ _ hne => hne

/-- A reference that is kept divides nothing any more once its column is used up. -/
theorem downdate_reference (nm : Numerics ℝ) (c : Vec ℝ m) (i : Fin m) {norm reference : ℝ}
    (href : norm ≠ 0 → reference ≠ 0) (hne : (downdate nm c i norm reference).1 ≠ 0) :
    (downdate nm c i norm reference).2 ≠ 0 := by
  unfold downdate at hne ⊢
  by_cases hnorm : norm = 0
  · rw [if_pos ((Exact.beq_iff norm 0).2 hnorm)] at hne
    exact absurd hnorm hne
  · rw [if_neg (mt (Exact.beq_iff norm 0).1 hnorm)] at hne ⊢
    by_cases hfresh : 0.05 * square (norm * sqrt (maxNum 0 (1 - c i / norm * (c i / norm))) /
        reference) ≤ nm.epsilon
    · simp only [if_pos hfresh] at hne ⊢
      exact hne
    · simp only [if_neg hfresh]
      exact href hnorm

section Reduce

variable {e : Elimination ℝ m n} {i : Fin m} {j : Fin n}

/-- The elimination of a column divides by zero nowhere: its reflector has a pivot of at least
one. -/
theorem reduce?_eq (pivot : Bool) (h : KeepsReferences e (j + 1)) :
    e.reduce? (Numerics.exact ε τ z) pivot i j =
      some (e.reduce (Numerics.exact ε τ z) pivot i j) := by
  unfold reduce? reduce
  by_cases hzero : (Numerics.exact ε τ z).tailNorm (e.a.col j) i == 0
  · simp only [if_pos hzero]
  · have hne := mt (tailNorm_beq_zero ε τ z (e.a.col j) i).2 hzero
    simp only [if_neg hzero]
    set scale := if e.a i j < 0 then -(Numerics.exact ε τ z).tailNorm (e.a.col j) i
      else (Numerics.exact ε τ z).tailNorm (e.a.col j) i
    have hscale : scale ≠ 0 := signedNorm_ne_zero hne
    have hpivot : reflector (e.a.col j) i scale i ≠ 0 :=
      (isReflector_signedNorm (ε := ε) (τ := τ) (z := z) hne).pivot_ne
    have hnorms : ∀ (c : Vec ℝ m) (k : Fin n),
        (if j < k ∧ pivot then
            downdate? (Numerics.exact ε τ z) c i (e.rdiag k) (e.reference k)
          else some (e.rdiag k, e.reference k)) =
        some (if j < k ∧ pivot then
            downdate (Numerics.exact ε τ z) c i (e.rdiag k) (e.reference k)
          else (e.rdiag k, e.reference k)) := by
      intro c k
      by_cases hk : j < k ∧ pivot
      · rw [if_pos hk, if_pos hk, downdate?_eq _ c i (h k hk.1)]
      · rw [if_neg hk, if_neg hk]
    simp only [reflector?_eq _ _ hscale, Householder.reflect?_eq hpivot, ← apply_ite some,
      Mat.ofCols?_some, hnorms, Vec.of?_some, Option.bind_eq_bind, Option.bind_some,
      Option.pure_def]

/-- An elimination keeps the references of the columns after the one that is eliminated. -/
theorem KeepsReferences.reduce (nm : Numerics ℝ) (pivot : Bool) (i : Fin m)
    (h : KeepsReferences e (j + 1)) : KeepsReferences (e.reduce nm pivot i j) (j + 1) := by
  intro l hl hne
  have hlj : l ≠ j := Fin.ne_of_val_ne (by omega)
  unfold Elimination.reduce at hne ⊢
  by_cases hzero : nm.tailNorm (e.a.col j) i == 0
  · simp only [if_pos hzero, Vec.set_apply, if_neg hlj] at hne ⊢
    exact h l hl hne
  · simp only [if_neg hzero, Vec.set_apply, if_neg hlj, Vec.map_apply, Vec.of_apply] at hne ⊢
    split at hne
    · next hk =>
      rw [if_pos hk]
      exact downdate_reference nm _ i (h l hl) hne
    · next hk =>
      rw [if_neg hk]
      exact h l hl hne

/-- Exchanging two columns carries their references with them. -/
theorem KeepsReferences.exchange {k : Nat} (h : KeepsReferences e k) {p : Fin n} (hj : k ≤ j.val)
    (hp : k ≤ p.val) : KeepsReferences (e.exchange j p) k := by
  intro l hl hne
  have hreference : (e.exchange j p).reference l = e.reference (Equiv.swap j p l) :=
    swap_eq e.reference j p l
  rw [rdiag_exchange] at hne
  rw [hreference]
  exact h _ (le_swap hj hp hl) hne

/-- A step comes to its end and keeps the references. -/
theorem step?_eq (pivot : Bool) (h : KeepsReferences e j) :
    e.step? (Numerics.exact ε τ z) pivot i j = some (e.step (Numerics.exact ε τ z) pivot i j) ∧
      KeepsReferences (e.step (Numerics.exact ε τ z) pivot i j) (j + 1) := by
  have hweaken : ∀ {e : Elimination ℝ m n}, KeepsReferences e j → KeepsReferences e (j + 1) :=
    fun h l hl => h l (Nat.le_of_succ_le hl)
  unfold step? step
  cases pivot with
  | true =>
    have hexchange := hweaken (h.exchange le_rfl (le_pivotColumn e j))
    simp only [if_true]
    exact ⟨reduce?_eq true hexchange, hexchange.reduce _ true i⟩
  | false =>
    simp only [Bool.false_eq_true, if_false]
    exact ⟨reduce?_eq false (hweaken h), (hweaken h).reduce _ false i⟩

end Reduce

/-- Every step of the elimination is checked, and a remaining column with a nonzero norm always has
a nonzero reference. -/
theorem after?_eq (pivot : Bool) (a : Mat ℝ m n) {k : Nat} (hm : k ≤ m) (hn : k ≤ n) :
    after? (Numerics.exact ε τ z) pivot a k = some (after (Numerics.exact ε τ z) pivot a k) ∧
      KeepsReferences (after (Numerics.exact ε τ z) pivot a k) k := by
  induction k with
  | zero => exact ⟨rfl, keepsReferences_start _ a⟩
  | succ k ih =>
    obtain ⟨heq, hkeeps⟩ := ih (Nat.le_of_succ_le hm) (Nat.le_of_succ_le hn)
    rw [after?, after, heq, Option.bind_eq_bind, Option.bind_some,
      dif_pos (Nat.lt_of_succ_le hm), dif_pos (Nat.lt_of_succ_le hn), dif_pos ⟨hm, hn⟩]
    exact step?_eq (j := ⟨k, hn⟩) pivot hkeeps

end Elimination

/-- In exact arithmetic every matrix can be factored. -/
@[simp] theorem QR.factor?_eq (pivot : Bool) (a : Mat ℝ m n) :
    factor? (Numerics.exact ε τ z) pivot a = some (factor (Numerics.exact ε τ z) pivot a) := by
  rw [factor?, factor, (Elimination.after?_eq pivot a (Nat.min_le_left m n)
    (Nat.min_le_right m n)).1]
  rfl

end NonlinearSolve

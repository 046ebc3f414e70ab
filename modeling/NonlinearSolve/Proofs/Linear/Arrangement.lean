import Mathlib.Order.Fin.Basic
import NonlinearSolve.Linear.Covariance
import NonlinearSolve.Proofs.Exact.Arithmetic

/-! # The order of the parameters

The entries of a triangle are carried, within one matrix, from above the diagonal to the places of
their parameters below it. Different entries have different places, and above the diagonal nothing
changes but the columns beyond the rank (`Carried.carry`). So the symmetric matrix in the end has,
at the parameters of two positions, the entry of these positions (`symmetric_arrange`). -/

namespace NonlinearSolve

namespace Covariance

/-! ### Entries -/

namespace Arranged

variable {α : Type} {n : Nat} (s : Arranged α n)

/-- The entries of a symmetric matrix do not depend on the order of the indices. -/
theorem symmetric_comm (i j : Fin n) : s.symmetric i j = s.symmetric j i := by
  simp only [symmetric, Mat.of_apply]
  rcases lt_trichotomy i j with hlt | rfl | hgt
  · rw [if_pos hlt, if_neg hlt.not_gt, if_neg hlt.ne']
  · rfl
  · rw [if_pos hgt, if_neg hgt.not_gt, if_neg hgt.ne']

/-- Its diagonal entries are stored apart. -/
theorem symmetric_self (i : Fin n) : s.symmetric i i = s.diag i := by
  rw [symmetric, Mat.of_apply, if_neg (lt_irrefl i), if_pos rfl]

/-- Away from the diagonal the entries are those below it. -/
theorem symmetric_of_ne {i j : Fin n} (hij : i ≠ j) :
    s.symmetric i j = s.matrix (max i j) (min i j) := by
  rw [symmetric, Mat.of_apply]
  rcases lt_or_gt_of_ne hij with hlt | hgt
  · rw [if_pos hlt, max_eq_right hlt.le, min_eq_left hlt.le]
  · rw [if_neg hgt.not_gt, if_neg hij, max_eq_left hgt.le, min_eq_right hgt.le]

end Arranged

variable {α : Type} [Scalar α] {n : Nat}

/-- The covariance of the positions `i` and `j`, if `b` holds it on and above the diagonal: zero for
a position beyond the rank. -/
def between (b : Mat α n n) (rank : Nat) (i j : Fin n) : α :=
  if (max i j).val < rank then b (min i j) (max i j) else 0

/-- The covariance of two positions does not depend on their order. -/
theorem between_comm (b : Mat α n n) (rank : Nat) (i j : Fin n) :
    between b rank i j = between b rank j i := by
  rw [between, between, max_comm, min_comm]

/-- On and above the diagonal the covariance is read where it is stored. -/
theorem between_of_le (b : Mat α n n) (rank : Nat) {i j : Fin n} (hij : i ≤ j) :
    between b rank i j = if j.val < rank then b i j else 0 := by
  rw [between, max_eq_right hij, min_eq_left hij]

/-- A position beyond the rank has no covariance with any other one. -/
theorem between_eq_zero (b : Mat α n n) {rank : Nat} (i : Fin n) {j : Fin n} (hj : rank ≤ j.val) :
    between b rank i j = 0 :=
  if_neg (Nat.not_lt.2 (hj.trans (le_max_right i j)))

/-! ### One entry -/

section Carry

variable (order : Vec (Fin n) n) (rank : Nat) (b : Mat α n n)

/-- An entry is written to the place of its two parameters below the diagonal. -/
theorem carry_eq (i j : Fin n) :
    carry order rank b i j =
      let c := if j.val < rank then b else b.set i j 0
      if order i = order j then c
      else c.set (max (order i) (order j)) (min (order i) (order j)) (c i j) := by
  simp only [carry]
  rcases lt_trichotomy (order i) (order j) with hlt | heq | hgt
  · rw [if_neg hlt.not_gt, if_pos hlt, if_neg hlt.ne, max_eq_right hlt.le, min_eq_left hlt.le]
  · rw [if_neg heq.not_gt, if_neg heq.not_lt, if_pos heq]
  · rw [if_pos hgt, if_neg hgt.ne', max_eq_left hgt.le, min_eq_right hgt.le]

/-- On and above the diagonal only an entry beyond the rank changes. -/
theorem carry_apply_of_le {i j p q : Fin n} (hpq : p ≤ q) :
    carry order rank b i j p q =
      if j.val < rank then b p q else if p = i ∧ q = j then 0 else b p q := by
  have hset : ∀ c : Mat α n n, order i ≠ order j →
      c.set (max (order i) (order j)) (min (order i) (order j)) (c i j) p q = c p q := by
    intro c hne
    rw [Mat.set_apply, if_neg]
    rintro ⟨rfl, rfl⟩
    exact hpq.not_gt (min_lt_max.2 hne)
  have hcarry : carry order rank b i j p q = (if j.val < rank then b else b.set i j 0) p q := by
    rw [carry_eq]
    by_cases heq : order i = order j
    · simp only [if_pos heq]
    · simp only [if_neg heq, hset _ heq]
  rw [hcarry]
  split
  · rfl
  · rw [Mat.set_apply]

/-- The entry at the place of its parameters. -/
theorem carry_apply_place {i j : Fin n} (hne : order i ≠ order j) :
    carry order rank b i j (max (order i) (order j)) (min (order i) (order j)) =
      if j.val < rank then b i j else 0 := by
  rw [carry_eq]
  simp only [if_neg hne, Mat.set_apply, and_self, if_true]
  split
  · rfl
  · rw [Mat.set_apply, if_pos ⟨rfl, rfl⟩]

/-- The other places are left alone. -/
theorem carry_apply_of_ne {i j p q : Fin n} (hij : i ≤ j) (hqp : q < p)
    (hplace : ¬ (p = max (order i) (order j) ∧ q = min (order i) (order j))) :
    carry order rank b i j p q = b p q := by
  have hbelow : ¬ (p = i ∧ q = j) := by
    rintro ⟨rfl, rfl⟩
    exact hij.not_gt hqp
  have hsame : (if j.val < rank then b else b.set i j 0) p q = b p q := by
    split
    · rfl
    · rw [Mat.set_apply, if_neg hbelow]
  rw [carry_eq]
  by_cases heq : order i = order j
  · simp only [if_pos heq, hsame]
  · simp only [if_neg heq, Mat.set_apply, if_neg hplace, hsame]

end Carry

/-! ### All entries -/

variable {order : Vec (Fin n) n} {rank : Nat} {b₀ b : Mat α n n}

/-- Different entries above the diagonal have different places. -/
theorem place_injective (horder : Function.Injective order.get) {i j k l : Fin n} (hij : i < j)
    (hkl : k < l) (hmax : max (order i) (order j) = max (order k) (order l))
    (hmin : min (order i) (order j) = min (order k) (order l)) : i = k ∧ j = l := by
  rcases le_total (order i) (order j) with h | h <;>
    rcases le_total (order k) (order l) with h' | h'
  · rw [max_eq_right h, max_eq_right h'] at hmax
    rw [min_eq_left h, min_eq_left h'] at hmin
    exact ⟨horder hmin, horder hmax⟩
  · rw [max_eq_right h, max_eq_left h'] at hmax
    rw [min_eq_left h, min_eq_right h'] at hmin
    exact absurd (horder hmax ▸ horder hmin ▸ hij) hkl.not_gt
  · rw [max_eq_left h, max_eq_right h'] at hmax
    rw [min_eq_right h, min_eq_left h'] at hmin
    exact absurd (horder hmax ▸ horder hmin ▸ hij) hkl.not_gt
  · rw [max_eq_left h, max_eq_left h'] at hmax
    rw [min_eq_right h, min_eq_right h'] at hmin
    exact ⟨horder hmax, horder hmin⟩

/-- The entries of `b₀` at the positions `i ≤ j` that satisfy `done` have been carried to their
places in `b`. Those that count for the rank are where they were as well. -/
structure Carried (order : Vec (Fin n) n) (rank : Nat) (b₀ : Mat α n n)
    (done : Fin n → Fin n → Prop) (b : Mat α n n) : Prop where
  /-- Up to the rank nothing changes on and above the diagonal. -/
  kept {i j : Fin n} : i ≤ j → j.val < rank → b i j = b₀ i j
  /-- A diagonal entry stays, or is zero. -/
  diagonal {j : Fin n} : done j j → b j j = between b₀ rank j j
  /-- Another entry is at the place of its parameters. -/
  place {i j : Fin n} : i < j → done i j →
    b (max (order i) (order j)) (min (order i) (order j)) = between b₀ rank i j

namespace Carried

variable {done done' : Fin n → Fin n → Prop}

/-- What is carried is carried for fewer positions too. -/
theorem mono (h : Carried order rank b₀ done b) (hle : ∀ i j, i ≤ j → done' i j → done i j) :
    Carried order rank b₀ done' b where
  kept := h.kept
  diagonal hj := h.diagonal (hle _ _ le_rfl hj)
  place hij hd := h.place hij (hle _ _ hij.le hd)

/-- One more entry is carried. -/
theorem carry (h : Carried order rank b₀ done b) (horder : Function.Injective order.get)
    {k l : Fin n} (hkl : k ≤ l) :
    Carried order rank b₀ (fun i j => done i j ∨ (i = k ∧ j = l))
      (Covariance.carry order rank b k l) where
  kept {i j} hij hj := by
    rw [carry_apply_of_le _ _ _ hij, ← h.kept hij hj]
    by_cases hl : l.val < rank
    · rw [if_pos hl]
    · have hne : ¬ (i = k ∧ j = l) := fun e => hl (e.2 ▸ hj)
      rw [if_neg hl, if_neg hne]
  diagonal {j} hd := by
    rw [carry_apply_of_le _ _ _ le_rfl]
    by_cases hkj : j = k ∧ j = l
    · obtain ⟨rfl, rfl⟩ := hkj
      rw [between_of_le _ _ le_rfl]
      split
      · exact h.kept le_rfl ‹_›
      · exact if_pos ⟨rfl, rfl⟩
    · rw [if_neg hkj, ite_self]
      exact h.diagonal (hd.resolve_right hkj)
  place {i j} hij hd := by
    have hne : order i ≠ order j := fun e => hij.ne (horder e)
    by_cases hkl' : i = k ∧ j = l
    · obtain ⟨rfl, rfl⟩ := hkl'
      rw [carry_apply_place _ _ _ hne, between_of_le _ _ hij.le]
      split
      · exact h.kept hij.le ‹_›
      · rfl
    · -- another pair has another place, and one parameter alone has none
      rw [carry_apply_of_ne _ _ _ hkl (min_lt_max.2 hne), h.place hij (hd.resolve_right hkl')]
      rintro ⟨hmax, hmin⟩
      rcases hkl.eq_or_lt with rfl | hlt
      · rw [max_self] at hmax
        rw [min_self] at hmin
        exact (min_lt_max.2 hne).ne (hmin.trans hmax.symm)
      · exact hkl' (place_injective horder hij hlt hmax hmin)

end Carried

/-- The columns before `c` have been carried. -/
structure ColumnsCarried (order : Vec (Fin n) n) (rank : Nat) (b₀ : Mat α n n) (c : Nat)
    (s : Arranged α n) : Prop where
  /-- Their entries are at the places of their parameters. -/
  entries : Carried order rank b₀ (fun _ j => j.val < c) s.matrix
  /-- So are their diagonal entries. -/
  diag {j : Fin n} : j.val < c → s.diag (order j) = between b₀ rank j j

/-- One more column is carried, entry by entry. -/
theorem ColumnsCarried.carryColumn {s : Arranged α n} {c : Fin n}
    (h : ColumnsCarried order rank b₀ c s) (horder : Function.Injective order.get) :
    ColumnsCarried order rank b₀ (c + 1) (carryColumn order rank s c) := by
  -- the invariant: of column `c`, the entries before row `k` have been carried
  have hcolumn := foldl_invariant
    (f := fun (b : Mat α n n) i => if i ≤ c then carry order rank b i c else b) (b := s.matrix)
    (motive := fun k b => Carried order rank b₀
      (fun i j => j.val < c.val ∨ (j = c ∧ i.val < k)) b)
    (h.entries.mono fun i j _ hd => hd.resolve_right fun e => Nat.not_lt_zero _ e.2)
    fun k b hb => by
      by_cases hk : k ≤ c
      · rw [if_pos hk]
        refine (hb.carry horder hk).mono fun i j _ hd => ?_
        rcases hd with hlt | ⟨hj, hi⟩
        · exact .inl (.inl hlt)
        · rcases (Nat.lt_succ_iff.1 hi).lt_or_eq with hi | hi
          · exact .inl (.inr ⟨hj, hi⟩)
          · exact .inr ⟨Fin.ext hi, hj⟩
      · rw [if_neg hk]
        refine hb.mono fun i j hij hd => ?_
        rcases hd with hlt | ⟨rfl, -⟩
        · exact .inl hlt
        · exact .inr ⟨rfl, lt_of_le_of_lt hij (not_le.1 hk)⟩
  have hdone : Carried order rank b₀ (fun _ j => j.val < c.val + 1)
      (Covariance.carryColumn order rank s c).matrix :=
    hcolumn.mono fun i j _ hd =>
      (Nat.lt_succ_iff.1 hd).lt_or_eq.imp id fun e => ⟨Fin.ext e, i.isLt⟩
  refine ⟨hdone, ?_⟩
  intro j hj
  change (s.diag.set (order c) ((Covariance.carryColumn order rank s c).matrix c c)) (order j) = _
  rw [Vec.set_apply]
  by_cases hjc : j = c
  · rw [hjc, if_pos rfl]
    exact hdone.diagonal (Nat.lt_succ_self _)
  · have hval := Fin.val_ne_of_ne hjc
    rw [if_neg fun e => hjc (horder e)]
    exact h.diag (by omega)

/-- In the end all columns have been carried. -/
theorem columnsCarried_arrange (horder : Function.Injective order.get) (b₀ : Mat α n n)
    (rank : Nat) : ColumnsCarried order rank b₀ n (arrange b₀ order rank) := by
  refine foldl_invariant (motive := ColumnsCarried order rank b₀) ?_ ?_
  · have hnone : ∀ j : Fin n, ¬ j.val < 0 := fun j => Nat.not_lt_zero _
    exact ⟨⟨fun _ _ => rfl, fun hd => absurd hd (hnone _), fun _ hd => absurd hd (hnone _)⟩,
      fun hd => absurd hd (hnone _)⟩
  · intro c s hs
    exact hs.carryColumn horder

/-- The symmetric matrix has the entry of two positions at their parameters. -/
theorem symmetric_arrange (horder : Function.Injective order.get) (b₀ : Mat α n n) (rank : Nat)
    (i j : Fin n) :
    (arrange b₀ order rank).symmetric (order i) (order j) = between b₀ rank i j := by
  have hdone := columnsCarried_arrange horder b₀ rank
  have hplace : ∀ i j, i < j →
      (arrange b₀ order rank).symmetric (order i) (order j) = between b₀ rank i j := by
    intro i j hij
    rw [Arranged.symmetric_of_ne _ fun e => hij.ne (horder e)]
    exact hdone.entries.place hij j.isLt
  rcases lt_trichotomy i j with hlt | rfl | hgt
  · exact hplace i j hlt
  · rw [Arranged.symmetric_self]
    exact hdone.diag i.isLt
  · rw [Arranged.symmetric_comm, between_comm]
    exact hplace j i hgt

end Covariance

end NonlinearSolve

import Mathlib.Tactic.Ring
import NonlinearSolve.Linear.Trapezoid

/-! # The packed form of a trapezoid

Unpacking the packed form of a trapezoid gives the trapezoid back (`Trapezoid.ofPacked_toPacked`),
since entry `(i, j)` stands at the place where `ofPacked` looks for it
(`Trapezoid.getElem?_toPacked`). -/

namespace NonlinearSolve

namespace Trapezoid

variable {α : Type} [Scalar α] {m n : Nat}

/-- The number of packed entries before column `j`. -/
def packedOffset (m : Nat) : Nat → Nat
  | 0 => 0
  | j + 1 => packedOffset m j + (m - j)

/-- The place where a packed column begins, as a product. -/
theorem two_mul_packedOffset {j : Nat} (h : j ≤ m) :
    2 * packedOffset m j = j * (2 * m - j + 1) := by
  induction j with
  | zero => rw [packedOffset, Nat.zero_mul]
  | succ j ih =>
    obtain ⟨d, rfl⟩ := Nat.exists_eq_add_of_lt h
    have h₁ : 2 * (j + d + 1) - j + 1 = j + 2 * d + 3 := by omega
    have h₂ : 2 * (j + d + 1) - (j + 1) + 1 = j + 2 * d + 2 := by omega
    have h₃ : j + d + 1 - j = d + 1 := by omega
    rw [packedOffset, Nat.mul_add, ih (by omega), h₁, h₂, h₃]
    ring

/-- The packed entries of column `j`. -/
def packedCol (t : Trapezoid α m n) (j : Fin n) : List α := (t.full.col j).toList.drop j

/-- A packed column leaves out what is above the diagonal. -/
theorem length_packedCol (t : Trapezoid α m n) (j : Fin n) : (t.packedCol j).length = m - j := by
  rw [packedCol, List.length_drop, Vec.length_toList]

/-- The columns before `j` take up the places before its offset. -/
theorem length_flatMap_take (t : Trapezoid α m n) {j : Nat} (h : j ≤ n) :
    (((List.finRange n).take j).flatMap t.packedCol).length = packedOffset m j := by
  induction j with
  | zero => rfl
  | succ j ih =>
    have hj : j < (List.finRange n).length := by
      rw [List.length_finRange]
      exact h
    rw [← List.take_append_getElem hj, List.flatMap_append, List.length_append,
      ih (Nat.le_of_succ_le h), packedOffset, List.flatMap_singleton, length_packedCol,
      List.getElem_finRange]
    rfl

/-- The place of an entry in the packed form. -/
theorem getElem?_toPacked (t : Trapezoid α m n) {i : Fin m} {j : Fin n} (h : j.val ≤ i.val) :
    t.toPacked[packedOffset m j + (i - j)]? = some (t i j) := by
  have hj : j.val < (List.finRange n).length := by
    rw [List.length_finRange]
    exact j.isLt
  -- the entries before column `j`, the entry in column `j`, and what comes after
  have hsplit : t.toPacked = ((List.finRange n).take j).flatMap t.packedCol ++
      (t.packedCol j ++ ((List.finRange n).drop (j + 1)).flatMap t.packedCol) := by
    have hdrop : (List.finRange n).drop j = j :: (List.finRange n).drop (j + 1) := by
      rw [List.drop_eq_getElem_cons hj, List.getElem_finRange]
      rfl
    rw [← List.flatMap_cons, ← hdrop, ← List.flatMap_append, List.take_append_drop]
    rfl
  have hi : i.val - j.val < (t.packedCol j).length := by
    rw [length_packedCol]
    omega
  have hlen := length_flatMap_take t (Nat.le_of_lt j.isLt)
  rw [hsplit, ← hlen, List.getElem?_append_right (Nat.le_add_right _ _), Nat.add_sub_cancel_left,
    List.getElem?_append_left hi, packedCol, List.getElem?_drop, Nat.add_sub_cancel' h]
  exact (List.getElem?_eq_getElem (by simp)).trans
    (congrArg some (Vec.getElem_toList (t.full.col j) i (by simp)))

/-- Unpacking undoes packing. -/
theorem ofPacked_toPacked (h : n ≤ m) (t : Trapezoid α m n) : ofPacked m n t.toPacked = t := by
  ext i j
  rw [ofPacked, of_apply]
  by_cases hij : i.val < j.val
  · rw [if_pos hij, t.apply_of_lt hij]
  · have hle : j.val ≤ i.val := Nat.not_lt.1 hij
    -- the offset is halved without remainder
    have hoffset : j.val * (2 * m - j.val + 1) / 2 = packedOffset m j := by
      rw [← two_mul_packedOffset (Nat.le_trans (Nat.le_of_lt j.isLt) h),
        Nat.mul_div_cancel_left _ (by decide)]
    rw [if_neg hij, hoffset, List.getD_eq_getElem?_getD, getElem?_toPacked t hle]
    rfl

end Trapezoid

end NonlinearSolve

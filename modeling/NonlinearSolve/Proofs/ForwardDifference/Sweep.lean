import NonlinearSolve.ForwardDifference
import NonlinearSolve.Proofs.Course.Accounts

/-! # What forward differences leave behind

A sweep displaces the unknowns in place. Putting a group back undoes its displacement
(`restored_displaced`), so a sweep leaves the unknowns as they were, however it ends
(`sweep_point`). In the trace it leaves an orderly list of evaluations (`sweep_recorded`), one for
every group unless it is aborted (`evaluates_sweep`). -/

namespace NonlinearSolve

namespace ForwardDifference

variable {σ α : Type} [Scalar α] {m n : Nat}

/-- Putting a group back undoes its displacement. -/
@[simp] theorem restored_displaced (eps : α) (group : Fin n → Bool) (x : Vec α n) :
    restored group x (displaced eps group x) = x := by
  ext j
  rw [restored, displaced, Vec.of_apply, Vec.of_apply]
  by_cases hj : group j
  · rw [if_pos hj]
  · rw [if_neg hj, if_neg hj]

/-- A sweep leaves the unknowns as they were, also if an evaluation aborts. -/
@[simp] theorem sweep_point (p : Problem σ α m n) (eps : α) (write : Writer α m n)
    (fvec : Vec α m) (groups : List (Fin n → Bool)) (x : Vec α n) (a : Mat α m n) (s : σ) :
    (sweep p eps write fvec groups x a s).2.1 = x := by
  induction groups generalizing a s with
  | nil => rfl
  | cons group groups ih =>
    rw [sweep]
    -- the group is put back before the answer of the evaluation is looked at
    rcases p.evaluate (displaced eps group x) s with ⟨e | f, s'⟩
    · exact restored_displaced eps group x
    · simp only [restored_displaced]
      exact ih _ s'

/-- Dense forward differences leave the unknowns as they were. -/
@[simp] theorem dense_point (p : Problem σ α m n) (nm : Numerics α) (epsfcn : α) (x : Vec α n)
    (fvec : Vec α m) (a : Mat α m n) (s : σ) :
    (dense p nm epsfcn x fvec a s).2.1 = x :=
  sweep_point p _ _ fvec _ x a s

/-- Banded forward differences leave the unknowns as they were. -/
@[simp] theorem banded_point (p : Problem σ α m n) (nm : Numerics α) (ml mu : Nat) (epsfcn : α)
    (x : Vec α n) (fvec : Vec α m) (a : Mat α m n) (s : σ) :
    (banded p nm ml mu epsfcn x fvec a s).2.1 = x := by
  rw [banded]
  split
  · exact dense_point p nm epsfcn x fvec a s
  · exact sweep_point p _ _ fvec _ x a s

/-! ### Calls -/

/-- The evaluations of a sweep are recorded. -/
theorem sweep_recorded (p : Problem σ α m n) (eps : α) (write : Writer α m n) (fvec : Vec α m)
    (groups : List (Fin n → Bool)) (x : Vec α n) (a : Mat α m n) :
    RecordedLoop (sweep p eps write fvec groups x a)
      fun k answer => sweep (p.answering k answer) eps write fvec groups x a := by
  induction groups generalizing x a with
  | nil =>
    intro s
    refine MakesCalls.silent ?_
    intro k answer tr
    rfl
  | cons group groups ih =>
    intro s
    have hcall := p.makesCalls_evaluate (displaced eps group x) s
    rcases heval : p.evaluate (displaced eps group x) s with ⟨e | f, s'⟩
    all_goals
      simp only [heval] at hcall
      simp only [sweep, heval]
    · refine hcall.map ?_
      intro k answer tr tr' h
      simp only [h]
    · refine hcall.append (ih _ _ s') ?_
      intro k answer tr tr₁ tr₂ h₁ h₂
      simp only [h₁, h₂]

/-- Dense differences make their calls in order and stop at an abort. -/
theorem dense_recorded (p : Problem σ α m n) (nm : Numerics α) (epsfcn : α) (x : Vec α n)
    (fvec : Vec α m) (a : Mat α m n) :
    RecordedLoop (dense p nm epsfcn x fvec a)
      fun k answer => dense (p.answering k answer) nm epsfcn x fvec a :=
  sweep_recorded p _ _ fvec _ x a

/-- Banded differences make their calls in order and stop at an abort. -/
theorem banded_recorded (p : Problem σ α m n) (nm : Numerics α) (ml mu : Nat) (epsfcn : α)
    (x : Vec α n) (fvec : Vec α m) (a : Mat α m n) :
    RecordedLoop (banded p nm ml mu epsfcn x fvec a)
      fun k answer => banded (p.answering k answer) nm ml mu epsfcn x fvec a := by
  unfold banded
  split
  · exact dense_recorded p nm epsfcn x fvec a
  · exact sweep_recorded p _ _ fvec _ x a

/-! ### The number of calls -/

/-- The calls `tr` have become `tr'` by at most `k` evaluations, and by exactly `k` if none of them
aborted. -/
def Evaluates (k : Nat) (result : Except Abort Unit) (tr tr' : Array (Event α m n)) : Prop :=
  ∃ new : Array (Event α m n), tr' = tr ++ new ∧ evaluationCalls new = new.size ∧ new.size ≤ k ∧
    (result = .ok () → new.size = k)

/-- A sweep makes one evaluation for every group, unless it is aborted. -/
theorem evaluates_sweep (p : Problem σ α m n) (eps : α) (write : Writer α m n) (fvec : Vec α m)
    (groups : List (Fin n → Bool)) (x : Vec α n) (a : Mat α m n) (s : σ)
    (tr : Array (Event α m n)) :
    Evaluates groups.length (sweep p.traced eps write fvec groups x a (s, tr)).1 tr
      (sweep p.traced eps write fvec groups x a (s, tr)).2.2.2.2 := by
  induction groups generalizing x a s tr with
  | nil => exact ⟨#[], Array.append_empty.symm, rfl, le_rfl, fun _ => rfl⟩
  | cons group groups ih =>
    obtain ⟨first, hsize, hcalls, -, heval⟩ := p.traced_evaluate (displaced eps group x) s tr
    rcases hresult : p.evaluate (displaced eps group x) s with ⟨e | f, s'⟩
    · rw [hresult] at heval
      simp only [sweep, heval, List.length_cons]
      refine ⟨first, rfl, hcalls.trans hsize.symm, by omega, ?_⟩
      intro hok
      cases hok
    · -- the evaluations of the groups that are left come after this one
      rw [hresult] at heval
      simp only [sweep, heval, List.length_cons]
      obtain ⟨new, htr, hnew, hle, hall⟩ := ih (restored group x (displaced eps group x))
        (fill eps write (restored group x (displaced eps group x)) fvec f group a) s' (tr ++ first)
      refine ⟨first ++ new, ?_, ?_, ?_, ?_⟩
      · rw [htr, Array.append_assoc]
      · rw [evaluationCalls_append, Array.size_append, hcalls, hsize, hnew]
      · rw [Array.size_append]
        omega
      · intro hok
        rw [Array.size_append, hall hok, hsize, Nat.add_comm]

/-- Dense forward differences make one evaluation for every unknown. -/
theorem evaluates_dense (p : Problem σ α m n) (nm : Numerics α) (epsfcn : α) (x : Vec α n)
    (fvec : Vec α m) (a : Mat α m n) (s : σ) (tr : Array (Event α m n)) :
    Evaluates n (dense p.traced nm epsfcn x fvec a (s, tr)).1 tr
      (dense p.traced nm epsfcn x fvec a (s, tr)).2.2.2.2 := by
  have hsweep := evaluates_sweep p (relativeStep nm epsfcn) (fun _ q _ => q) fvec (singletons n) x
    a s tr
  rw [singletons, List.length_map, List.length_finRange] at hsweep
  exact hsweep

/-- Banded forward differences make one evaluation for every diagonal of the band, or for every
unknown if these are fewer. -/
theorem evaluates_banded (p : Problem σ α m n) (nm : Numerics α) (ml mu : Nat) (epsfcn : α)
    (x : Vec α n) (fvec : Vec α m) (a : Mat α m n) (s : σ) (tr : Array (Event α m n)) :
    Evaluates (min (bandWidth ml mu) n) (banded p.traced nm ml mu epsfcn x fvec a (s, tr)).1 tr
      (banded p.traced nm ml mu epsfcn x fvec a (s, tr)).2.2.2.2 := by
  unfold banded
  split
  · rename_i hwide
    rw [Nat.min_eq_right hwide]
    exact evaluates_dense p nm epsfcn x fvec a s tr
  · rename_i hnarrow
    have hsweep := evaluates_sweep p (relativeStep nm epsfcn) (writeBand ml mu) fvec
      (residueClasses n (bandWidth ml mu)) x a s tr
    rw [residueClasses, List.length_map, List.length_range] at hsweep
    rw [Nat.min_eq_left (Nat.le_of_not_le hnarrow)]
    exact hsweep

end ForwardDifference

end NonlinearSolve

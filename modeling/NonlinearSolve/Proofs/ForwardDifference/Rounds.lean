import Mathlib.Data.List.FinRange
import NonlinearSolve.Proofs.ForwardDifference.Sweep

/-! # Rounds of calls

Forward differences evaluate the residuals at one point after the other, until all groups of
unknowns have had their turn or a call aborts. A `Problem.Round` is the course of such calls: how
many succeed, with which residuals, and how the last one ends. For every problem there is one
(`Problem.nonempty_round`), and it decides all that a sweep does (`ForwardDifference.sweep_eq`): the
columns of the groups whose calls succeed hold the difference quotients, and the others are as they
were. `differences_follow_calls` says this for dense and for banded differences. -/

namespace NonlinearSolve

variable {σ α : Type} {m n : Nat}

/-! ### Calls one after the other -/

/-- The course of evaluations at `point 0, point 1, …`, the first one in the state `s` and every
other one in the state that the one before has left, until `limit` of them have succeeded or one has
aborted. -/
structure Problem.Round (p : Problem σ α m n) (point : Nat → Vec α n) (limit : Nat) (s : σ) where
  /-- The number of calls that succeed. -/
  done : Nat
  /-- The state before each call. -/
  states : Nat → σ
  /-- The residuals that each call yields. -/
  values : Nat → Vec α m
  /-- Whether the last call aborts. -/
  result : Except Abort Unit
  /-- The state after the last call. -/
  last : σ
  states_zero : states 0 = s
  evaluate_eq : ∀ c < done, p.evaluate (point c) (states c) = (.ok (values c), states (c + 1))
  ends : (done = limit ∧ result = .ok () ∧ last = states done) ∨
    (done < limit ∧ ∃ e, result = .error e ∧
      p.evaluate (point done) (states done) = (.error e, last))

/-- The calls of every problem take some course. -/
theorem Problem.nonempty_round [Scalar α] (p : Problem σ α m n) (point : Nat → Vec α n)
    (limit : Nat) (s : σ) : Nonempty (p.Round point limit s) := by
  induction limit generalizing point s with
  | zero =>
    exact ⟨{
      done := 0, states := fun _ => s, values := fun _ => Vec.zero m, result := .ok (), last := s
      states_zero := rfl
      evaluate_eq := fun c hc => absurd hc (Nat.not_lt_zero c)
      ends := .inl ⟨rfl, rfl, rfl⟩ }⟩
  | succ limit ih =>
    rcases heval : p.evaluate (point 0) s with ⟨e | v, s'⟩
    · exact ⟨{
        done := 0, states := fun _ => s, values := fun _ => Vec.zero m, result := .error e
        last := s'
        states_zero := rfl
        evaluate_eq := fun c hc => absurd hc (Nat.not_lt_zero c)
        ends := .inr ⟨limit.succ_pos, e, rfl, heval⟩ }⟩
    · -- the other calls follow in the state that the first one has left
      obtain ⟨r⟩ := ih (fun c => point (c + 1)) s'
      refine ⟨{
        done := r.done + 1
        states := fun c => c.casesOn s r.states
        values := fun c => c.casesOn v r.values
        result := r.result, last := r.last
        states_zero := rfl
        evaluate_eq := ?_
        ends := ?_ }⟩
      · rintro (_ | c) hc
        · change p.evaluate (point 0) s = (.ok v, r.states 0)
          rw [heval, r.states_zero]
        · exact r.evaluate_eq c (Nat.lt_of_succ_lt_succ hc)
      · obtain ⟨hdone, hresult⟩ | ⟨hdone, hresult⟩ := r.ends
        · exact .inl ⟨congrArg (· + 1) hdone, hresult⟩
        · exact .inr ⟨Nat.succ_lt_succ hdone, hresult⟩

namespace Problem.Round

variable {p : Problem σ α m n} {point : Nat → Vec α n} {limit : Nat} {s : σ}

/-- If no call aborts, all of them are made. -/
theorem done_of_ok (r : p.Round point limit s) (h : r.result = .ok ()) : r.done = limit := by
  obtain ⟨hdone, -⟩ | ⟨-, e, hresult, -⟩ := r.ends
  · exact hdone
  · rw [hresult] at h
    cases h

/-- The first `k` calls, which succeed. -/
def successes (point : Nat → Vec α n) (k : Nat) : Array (Event α m n) :=
  (Array.range k).map fun c => ⟨.evaluate (point c), none⟩

/-- No calls are made at first. -/
theorem successes_zero (point : Nat → Vec α n) :
    (successes point 0 : Array (Event α m n)) = #[] := by
  simp [successes]

/-- The calls are made in order. -/
theorem successes_succ (point : Nat → Vec α n) (k : Nat) :
    (successes point (k + 1) : Array (Event α m n)) =
      successes point k ++ #[⟨.evaluate (point k), none⟩] := by
  simp [successes, Array.range_succ]

/-- The calls of a round. -/
def calls (r : p.Round point limit s) : Array (Event α m n) :=
  successes point r.done ++
    match r.result with
    | .ok _ => #[]
    | .error e => #[⟨.evaluate (point r.done), some e⟩]

/-- The round of a problem that records its calls. -/
def traced (r : p.Round point limit s) (tr : Array (Event α m n)) :
    p.traced.Round point limit (s, tr) where
  done := r.done
  states c := (r.states c, tr ++ successes point c)
  values := r.values
  result := r.result
  last := (r.last, tr ++ r.calls)
  states_zero := by
    rw [r.states_zero, successes_zero, Array.append_empty]
  evaluate_eq := by
    intro c hc
    change Callback.traced _ _ _ = _
    rw [Callback.traced_apply, r.evaluate_eq c hc, successes_succ, Array.append_assoc]
    rfl
  ends := by
    obtain ⟨hdone, hresult, hlast⟩ | ⟨hdone, e, hresult, heval⟩ := r.ends
    · refine .inl ⟨hdone, hresult, ?_⟩
      rw [hlast, calls, hresult, Array.append_empty]
    · refine .inr ⟨hdone, e, hresult, ?_⟩
      change Callback.traced _ _ _ = _
      rw [Callback.traced_apply, heval, calls, hresult, Array.append_assoc]
      rfl

end Problem.Round

/-! ### Sweeps -/

namespace ForwardDifference

variable [Scalar α]

/-- The first `limit` groups, if `call` tells for every unknown which one it belongs to. -/
def groupsOf (call : Fin n → Nat) (limit : Nat) : List (Fin n → Bool) :=
  (List.range limit).map fun c j => call j == c

/-- There is one group for each call. -/
@[simp] theorem length_groupsOf (call : Fin n → Nat) (limit : Nat) :
    (groupsOf call limit).length = limit := by
  rw [groupsOf, List.length_map, List.length_range]

/-- The group of a call is made of the columns that name it. -/
theorem getElem_groupsOf (call : Fin n → Nat) {limit c : Nat}
    (hc : c < (groupsOf call limit).length) : (groupsOf call limit)[c] = fun j => call j == c := by
  simp only [groupsOf, List.getElem_map, List.getElem_range]

/-- Groups of one column name the calls by the columns. -/
theorem singletons_eq_groupsOf : singletons n = groupsOf Fin.val n := by
  rw [singletons, groupsOf, ← List.map_coe_finRange_eq_range, List.map_map]
  refine List.map_congr_left ?_
  intro j _
  funext k
  rw [Function.comp_apply, Bool.eq_iff_iff, beq_iff_eq, beq_iff_eq, Fin.ext_iff]

/-- At the point of a call the unknowns of its group are displaced, and the others are not. -/
theorem displaced_eq (eps : α) (call : Fin n → Nat) (c : Nat) (x : Vec α n) :
    displaced eps (fun j => call j == c) x =
      Vec.of fun j => if call j = c then x j + displacement eps (x j) else x j := by
  ext j
  simp only [displaced, Vec.of_apply, beq_iff_eq]

/-- The matrix `a` after the first `k` calls of a sweep, which have yielded the residuals
`values`. -/
def written (eps : α) (write : Writer α m n) (x : Vec α n) (fvec : Vec α m) (call : Fin n → Nat)
    (values : Nat → Vec α m) (k : Nat) (a : Mat α m n) : Mat α m n :=
  Mat.ofCols fun j =>
    if call j < k then write j (quotients eps x fvec (values (call j)) j) (a.col j) else a.col j

section Sweep

variable {p : Problem σ α m n} {eps : α} {write : Writer α m n} {x : Vec α n} {fvec : Vec α m}
  {call : Fin n → Nat} {values : Nat → Vec α m} {a : Mat α m n}

/-- Before the first call nothing is written. -/
theorem written_zero : written eps write x fvec call values 0 a = a := by
  ext i j
  rw [written, Mat.ofCols_apply, if_neg (Nat.not_lt_zero _)]
  rfl

/-- One more call writes the columns of its group, which are still as they were. -/
theorem fill_written (k : Nat) :
    fill eps write x fvec (values k) (fun j => call j == k)
        (written eps write x fvec call values k a) =
      written eps write x fvec call values (k + 1) a := by
  ext i j
  simp only [fill, written, Mat.col_ofCols, Mat.ofCols_apply]
  rcases lt_trichotomy (call j) k with hlt | heq | hgt
  · rw [if_neg (by simpa using hlt.ne), if_pos hlt, if_pos (hlt.trans k.lt_succ_self)]
  · rw [if_pos (beq_iff_eq.2 heq), if_neg heq.not_lt, if_pos (heq ▸ k.lt_succ_self), heq]
  · rw [if_neg (by simpa using hgt.ne'), if_neg hgt.not_gt, if_neg (by omega)]

/-- A sweep passes over the calls that succeed. -/
theorem sweep_drop {limit k : Nat} {states : Nat → σ} (hk : k ≤ limit)
    (h : ∀ c < k, p.evaluate (displaced eps (fun j => call j == c) x) (states c) =
      (.ok (values c), states (c + 1))) :
    sweep p eps write fvec (groupsOf call limit) x a (states 0) =
      sweep p eps write fvec ((groupsOf call limit).drop k) x
        (written eps write x fvec call values k a) (states k) := by
  induction k with
  | zero => rw [List.drop_zero, written_zero]
  | succ k ih =>
    have hlt : k < (groupsOf call limit).length := by
      rw [length_groupsOf]
      exact hk
    rw [ih (Nat.le_of_succ_le hk) fun c hc => h c (hc.trans k.lt_succ_self),
      List.drop_eq_getElem_cons hlt, getElem_groupsOf, sweep, h k k.lt_succ_self]
    simp only [restored_displaced, fill_written]

/-- What a sweep does is decided by the course of its calls. -/
theorem sweep_eq {limit : Nat} {s : σ} {point : Nat → Vec α n}
    (hpoint : ∀ c, displaced eps (fun j => call j == c) x = point c) (r : p.Round point limit s) :
    sweep p eps write fvec (groupsOf call limit) x a s =
      (r.result, x, written eps write x fvec call r.values r.done a, r.last) := by
  obtain rfl : (fun c => displaced eps (fun j => call j == c) x) = point := funext hpoint
  have hdrop (hk : r.done ≤ limit) : sweep p eps write fvec (groupsOf call limit) x a s =
      sweep p eps write fvec ((groupsOf call limit).drop r.done) x
        (written eps write x fvec call r.values r.done a) (r.states r.done) :=
    (congrArg (sweep p eps write fvec (groupsOf call limit) x a) r.states_zero.symm).trans
      (sweep_drop hk r.evaluate_eq)
  obtain ⟨hdone, hresult, hlast⟩ | ⟨hdone, e, hresult, heval⟩ := r.ends
  · rw [hdrop hdone.le, List.drop_of_length_le (by rw [length_groupsOf, hdone]), sweep, hresult,
      hlast]
  · have hlt : r.done < (groupsOf call limit).length := by rwa [length_groupsOf]
    rw [hdrop hdone.le, List.drop_eq_getElem_cons hlt, getElem_groupsOf, sweep, heval]
    simp only [restored_displaced, hresult]

end Sweep

/-! ### Dense and banded differences -/

/-- Dense differences are a sweep that gives each column a call of its own and writes it whole. -/
theorem dense_eq_sweep (p : Problem σ α m n) (nm : Numerics α) (epsfcn : α) (x : Vec α n)
    (fvec : Vec α m) (a : Mat α m n) (s : σ) :
    dense p nm epsfcn x fvec a s =
      sweep p (relativeStep nm epsfcn) (fun _ q _ => q) fvec (groupsOf Fin.val n) x a s := by
  rw [dense, singletons_eq_groupsOf]

/-- The entry in row `i` and column `j` lies in the band of `ml` subdiagonals and `mu`
superdiagonals. -/
def InBand (ml mu : Nat) (i j : Fin n) : Prop := j.val ≤ i.val + mu ∧ i.val ≤ j.val + ml

/-- Whether an entry lies in the band is decided by its indices. -/
instance (ml mu : Nat) (i j : Fin n) : Decidable (InBand ml mu i j) :=
  inferInstanceAs (Decidable (_ ∧ _))

/-- The writer of banded differences, which are dense if the band is as wide as the matrix. -/
def bandWriter (ml mu : Nat) : Writer α m n :=
  if n ≤ bandWidth ml mu then fun _ q _ => q else writeBand ml mu

/-- Banded differences are a sweep over the residues of the columns modulo the width of the band,
which only writes the band. -/
theorem banded_eq_sweep (p : Problem σ α m n) (nm : Numerics α) (ml mu : Nat) (epsfcn : α)
    (x : Vec α n) (fvec : Vec α m) (a : Mat α m n) (s : σ) :
    banded p nm ml mu epsfcn x fvec a s =
      sweep p (relativeStep nm epsfcn) (bandWriter ml mu) fvec
        (groupsOf (fun j => j.val % bandWidth ml mu) (min (bandWidth ml mu) n)) x a s := by
  rw [banded, bandWriter]
  by_cases hwide : n ≤ bandWidth ml mu
  · have hcall : (fun j : Fin n => j.val % bandWidth ml mu) = Fin.val :=
      funext fun j => Nat.mod_eq_of_lt (j.isLt.trans_le hwide)
    rw [if_pos hwide, if_pos hwide, hcall, Nat.min_eq_right hwide, dense_eq_sweep]
  · rw [if_neg hwide, if_neg hwide, Nat.min_eq_left (Nat.le_of_not_le hwide)]
    rfl

/-- Every column belongs to one of the calls. -/
theorem mod_bandWidth_lt (ml mu : Nat) (j : Fin n) :
    j.val % bandWidth ml mu < min (bandWidth ml mu) n :=
  lt_min (Nat.mod_lt _ (Nat.succ_pos _)) ((Nat.mod_le _ _).trans_lt j.isLt)

/-- The entries that dense differences have written after `k` calls. -/
theorem written_dense (eps : α) (x : Vec α n) (fvec : Vec α m) (values : Nat → Vec α m) (k : Nat)
    (a : Mat α m n) :
    written eps (fun _ q _ => q) x fvec Fin.val values k a = Mat.of fun i j =>
      if j.val < k then (values j i - fvec i) / displacement eps (x j) else a i j := by
  ext i j
  rw [written, Mat.ofCols_apply, Mat.of_apply, apply_ite (fun v : Vec α m => v i), quotients,
    Vec.of_apply, Mat.col_apply]

/-- The entries that banded differences have written to a square matrix after `k` calls. -/
theorem written_banded (ml mu : Nat) (eps : α) (x fvec : Vec α n) (values : Nat → Vec α n)
    (k : Nat) (a : Mat α n n) :
    written eps (bandWriter ml mu) x fvec (fun j => j.val % bandWidth ml mu) values k a =
      Mat.of fun i j =>
        if j.val % bandWidth ml mu < k then
          if n ≤ bandWidth ml mu ∨ InBand ml mu i j then
            (values (j.val % bandWidth ml mu) i - fvec i) / displacement eps (x j)
          else 0
        else a i j := by
  ext i j
  rw [written, Mat.ofCols_apply, Mat.of_apply, apply_ite (fun v : Vec α n => v i), bandWriter]
  by_cases hwide : n ≤ bandWidth ml mu
  · simp only [hwide, true_or, if_true, quotients, Vec.of_apply, Mat.col_apply]
  · simp only [hwide, false_or, if_false, writeBand, quotients, Vec.of_apply, Mat.col_apply,
      if_pos i.isLt]
    rfl

end ForwardDifference

open ForwardDifference Scalar

/-- Forward differences make one call after the other until all groups have had their turn or a call
aborts. In a call the unknowns of the group, and no others, are displaced by their magnitude times
the relative step, or by the relative step itself if that is zero. They return the abort, leave the
unknowns as they were, and make no other call. The columns of the groups whose calls succeed hold
the difference quotients, with zeros outside the band unless the band is as wide as the matrix, and
all other columns are as they were. Without an abort all columns are written. -/
theorem differences_follow_calls [Scalar α] (nm : Numerics α) (epsfcn : α) (x : Vec α n) (s : σ)
    (tr : Array (Event α m n)) (tr' : Array (Event α n n)) :
    let eps := sqrt (maxNum epsfcn nm.epsilon)
    let h (j : Fin n) := if eps * mag (x j) == 0 then eps else eps * mag (x j)
    (∀ (p : Problem σ α m n) (fvec : Vec α m) (a : Mat α m n),
      let point c := Vec.of fun j => if j.val = c then x j + h j else x j
      Nonempty (p.Round point n s) ∧ ∀ r : p.Round point n s,
        let b := Mat.of fun i j =>
          if j.val < r.done then (r.values j i - fvec i) / h j else a i j
        dense p nm epsfcn x fvec a s = (r.result, x, b, r.last) ∧
        dense p.traced nm epsfcn x fvec a (s, tr) = (r.result, x, b, r.last, tr ++ r.calls) ∧
        (r.result = .ok () → ∀ j : Fin n, j.val < r.done)) ∧
    ∀ (p : Problem σ α n n) (ml mu : Nat) (fvec : Vec α n) (a : Mat α n n),
      let w := bandWidth ml mu
      let point c := Vec.of fun j => if j.val % w = c then x j + h j else x j
      Nonempty (p.Round point (min w n) s) ∧ ∀ r : p.Round point (min w n) s,
        let b := Mat.of fun i j =>
          if j.val % w < r.done then
            if n ≤ w ∨ InBand ml mu i j then (r.values (j.val % w) i - fvec i) / h j else 0
          else a i j
        banded p nm ml mu epsfcn x fvec a s = (r.result, x, b, r.last) ∧
        banded p.traced nm ml mu epsfcn x fvec a (s, tr') =
          (r.result, x, b, r.last, tr' ++ r.calls) ∧
        (r.result = .ok () → ∀ j : Fin n, j.val % w < r.done) := by
  intro eps h
  refine ⟨?_, ?_⟩
  · intro p fvec a point
    have hpoint : ∀ c, displaced (relativeStep nm epsfcn) (fun j => j.val == c) x = point c :=
      fun c => displaced_eq _ Fin.val c x
    refine ⟨p.nonempty_round point n s, ?_⟩
    intro r b
    refine ⟨?_, ?_, ?_⟩
    · rw [dense_eq_sweep, sweep_eq hpoint r, written_dense]
      rfl
    · rw [dense_eq_sweep, sweep_eq hpoint (r.traced tr), written_dense]
      rfl
    · intro hok j
      rw [r.done_of_ok hok]
      exact j.isLt
  · intro p ml mu fvec a w point
    have hpoint : ∀ c,
        displaced (relativeStep nm epsfcn) (fun j => j.val % bandWidth ml mu == c) x = point c :=
      fun c => displaced_eq _ (fun j => j.val % bandWidth ml mu) c x
    refine ⟨p.nonempty_round point (min w n) s, ?_⟩
    intro r b
    refine ⟨?_, ?_, ?_⟩
    · rw [banded_eq_sweep, sweep_eq hpoint r, written_banded]
      rfl
    · rw [banded_eq_sweep, sweep_eq hpoint (r.traced tr'), written_banded]
      rfl
    · intro hok j
      rw [r.done_of_ok hok]
      exact mod_bandWidth_lt ml mu j

/-- The second of two calls aborts: the first and the third column have been written, with a zero
outside the band, the one between them is as it was, and so are the unknowns. -/
theorem differences_follow_calls_second_aborts :
    let stop : Abort := { status := -3 }
    let p : Problem Nat Float 3 3 :=
      { evaluate := fun x s => (if s = 1 then .error stop else .ok x, s + 1) }
    let x : Vec Float 3 := Vec.const 3 2
    let a : Mat Float 3 3 := Mat.const 3 3 7
    let b := banded p Numerics.binary64 1 0 0 x x a 0
    b.1 = .error stop ∧ b.2.1 = x ∧ (∀ i, b.2.2.1 i 1 = 7) ∧ b.2.2.1 2 0 = 0 ∧ b.2.2.2 = 2 := by
  intro stop p x a b
  obtain ⟨-, hbanded⟩ :=
    differences_follow_calls (m := 3) Numerics.binary64 0 x (0 : Nat) #[] #[]
  obtain ⟨-, hround⟩ := hbanded p 1 0 x a
  obtain ⟨hb, -⟩ := hround {
    done := 1, states := id
    values := fun c => Vec.of fun j =>
      if j.val % 2 = c then x j + displacement (relativeStep Numerics.binary64 0) (x j) else x j
    result := .error stop, last := 2
    states_zero := rfl
    evaluate_eq := by
      intro c hc
      obtain rfl : c = 0 := by omega
      rfl
    ends := .inr ⟨by decide, stop, rfl, rfl⟩ }
  change b = _ at hb
  rw [hb]
  refine ⟨rfl, rfl, ?_, ?_, rfl⟩
  · intro i
    rw [Mat.of_apply, if_neg (by decide), Mat.const_apply]
  · rw [Mat.of_apply, if_pos (by decide), if_neg (by decide)]

end NonlinearSolve

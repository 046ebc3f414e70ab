import Mathlib.Data.List.FinRange
import NonlinearSolve.Proofs.LeastSquares.Accounts
import NonlinearSolve.Proofs.Linear.PivotOrder

/-! # Interrupted linearizations

When a callback aborts in the middle of a linearization, the solve ends and reports what the
linearization has written by then (`Interrupted.exists_linearize`). With the Jacobian that is
nothing (`analytic_interrupted`). Forward differences have overwritten the columns before the one in
which they were interrupted (`numerical_interrupted`), and a linearization by rows has replaced the
factorization by that of the rows before (`rowwise_interrupted`). -/

namespace NonlinearSolve

variable {σ α : Type} {m r n : Nat}

/-- What comes before an index in the list of all of them. -/
theorem finRange_eq_append {done rest : List (Fin n)} {d : Fin n}
    (h : List.finRange n = done ++ d :: rest) :
    done = (List.finRange n).take d ∧ ∀ j, j ∈ done ↔ j < d := by
  have hsorted := List.pairwise_lt_finRange n
  rw [h, List.pairwise_append] at hsorted
  obtain ⟨-, hrest, hdone⟩ := hsorted
  have hlength : done.length = d := by
    have hget : (List.finRange n)[done.length]? = some d := by
      rw [h, List.getElem?_append_right le_rfl, Nat.sub_self]
      rfl
    obtain ⟨hlt, hd⟩ := List.getElem?_eq_some_iff.1 hget
    rw [← hd, List.getElem_finRange]
    rfl
  refine ⟨?_, ?_⟩
  · rw [← hlength, h, List.take_left]
  · intro j
    constructor
    · intro hj
      exact hdone j hj d List.mem_cons_self
    · intro hlt
      have hmem : j ∈ done ++ d :: rest := h ▸ List.mem_finRange j
      obtain hj | hj := List.mem_append.1 hmem
      · exact hj
      · -- from `d` on all indices are too large
        obtain rfl | hj := List.mem_cons.1 hj
        · exact absurd hlt (lt_irrefl _)
        · exact absurd hlt (lt_asymm (List.rel_of_pairwise_cons hrest hj))

/-! ### Forward differences -/

namespace ForwardDifference

variable [Scalar α]

/-- Column `j` of `a` holds the difference quotients of residuals that were evaluated with the
unknown `j` displaced. -/
def HoldsQuotients (p : Problem σ α m n) (eps : α) (x : Vec α n) (fvec : Vec α m) (a : Mat α m n)
    (j : Fin n) : Prop :=
  ∃ f s s', p.evaluate (displaced eps (fun k => k == j) x) s = (.ok f, s') ∧
    a.col j = quotients eps x fvec f j

/-- An evaluation with the unknown `j` displaced ends in the abort `e`. -/
def AbortsAt (p : Problem σ α m n) (eps : α) (x : Vec α n) (j : Fin n) (e : Abort) : Prop :=
  ∃ s s', p.evaluate (displaced eps (fun k => k == j) x) s = (.error e, s')

/-- A sweep over different unknowns that is interrupted has finished the columns before. -/
theorem sweep_interrupted {p : Problem σ α m n} {eps : α} {fvec : Vec α m} {x : Vec α n}
    {l : List (Fin n)} (hl : l.Nodup) {a : Mat α m n} {s : σ} {e : Abort}
    (h : (sweep p eps (fun _ q _ => q) fvec (l.map fun j k => k == j) x a s).1 = .error e) :
    ∃ done d rest, l = done ++ d :: rest ∧ AbortsAt p eps x d e ∧
      let b := (sweep p eps (fun _ q _ => q) fvec (l.map fun j k => k == j) x a s).2.2.1
      (∀ j ∈ done, HoldsQuotients p eps x fvec b j) ∧ ∀ j, j ∉ done → b.col j = a.col j := by
  induction l generalizing a s with
  | nil => cases h
  | cons i l ih =>
    obtain ⟨hi, hl⟩ := List.nodup_cons.1 hl
    rw [List.map_cons, sweep] at h ⊢
    rcases heval : p.evaluate (displaced eps (fun k => k == i) x) s with ⟨e' | f, s'⟩
    · -- the first evaluation aborts, and nothing has been written
      simp only [heval] at h ⊢
      cases h
      refine ⟨[], i, l, rfl, ⟨s, s', heval⟩, ?_, fun _ _ => trivial⟩
      rintro j (_ | _)
    · simp only [heval, restored_displaced] at h ⊢
      have hcol : ∀ j, (fill eps (fun _ q _ => q) x fvec f (fun k => k == i) a).col j =
          if j == i then quotients eps x fvec f j else a.col j := by
        intro j
        rw [fill, Mat.col_ofCols]
      obtain ⟨done, d, rest, rfl, habort, hdone, hrest⟩ := ih hl h
      refine ⟨i :: done, d, rest, rfl, habort, ?_, ?_⟩
      · rintro j (_ | ⟨_, hj⟩)
        · -- column `i` is not written to again
          have hnot : i ∉ done := fun hmem => hi (List.mem_append_left _ hmem)
          refine ⟨f, s, s', heval, ?_⟩
          rw [hrest i hnot, hcol i, if_pos (beq_self_eq_true i)]
        · exact hdone j hj
      · intro j hj
        rw [hrest j fun hmem => hj (List.mem_cons_of_mem i hmem), hcol j, if_neg]
        intro hbeq
        exact hj (eq_of_beq hbeq ▸ List.mem_cons_self)

/-- Dense differences that are interrupted have finished the columns before. -/
theorem dense_interrupted {p : Problem σ α m n} {nm : Numerics α} {epsfcn : α} {fvec : Vec α m}
    {x : Vec α n} {a : Mat α m n} {s : σ} {e : Abort}
    (h : (dense p nm epsfcn x fvec a s).1 = .error e) :
    ∃ d : Fin n, AbortsAt p (relativeStep nm epsfcn) x d e ∧
      let b := (dense p nm epsfcn x fvec a s).2.2.1
      (∀ j < d, HoldsQuotients p (relativeStep nm epsfcn) x fvec b j) ∧
        ∀ j, d ≤ j → b.col j = a.col j := by
  obtain ⟨done, d, rest, hlist, habort, hdone, hrest⟩ :=
    sweep_interrupted (List.nodup_finRange n) h
  obtain ⟨-, hmem⟩ := finRange_eq_append hlist
  refine ⟨d, habort, ?_, ?_⟩
  · intro j hj
    exact hdone j ((hmem j).2 hj)
  · intro j hj
    exact hrest j fun hlt => absurd ((hmem j).1 hlt) (not_lt.2 hj)

end ForwardDifference

namespace LeastSquares

open ForwardDifference

variable [Scalar α]

/-! ### Rows -/

/-- Folding in a list of rows that is interrupted has folded in the rows before. -/
theorem foldRows_interrupted_list {p : RowProblem σ α m n} {x : Vec α n} {f : Vec α m}
    {l : List (Fin m)} {q : Mat α n n} {b : Vec α n} {s : σ} {e : Abort}
    (h : (foldRows p x f l q b s).1 = .error e) :
    ∃ done d rest s₁ s₂, l = done ++ d :: rest ∧ p.jacobianRow x d s₁ = (.error e, s₂) ∧
      foldRows p x f done q b s =
        (.ok (), (foldRows p x f l q b s).2.1, (foldRows p x f l q b s).2.2.1, s₁) := by
  induction l generalizing q b s with
  | nil => cases h
  | cons i l ih =>
    rw [foldRows] at h ⊢
    rcases hrow : p.jacobianRow x i s with ⟨e' | w, s'⟩
    · simp only [hrow] at h ⊢
      cases h
      exact ⟨[], i, l, s, s', rfl, hrow, rfl⟩
    · simp only [hrow] at h ⊢
      obtain ⟨done, d, rest, s₁, s₂, rfl, habort, hfold⟩ := ih h
      refine ⟨i :: done, d, rest, s₁, s₂, rfl, habort, ?_⟩
      rw [foldRows, hrow]
      exact hfold

/-- A linearization by rows that is interrupted has folded in the rows before. -/
theorem foldRows_interrupted {p : RowProblem σ α m n} {x : Vec α n} {f : Vec α m} {q : Mat α n n}
    {b : Vec α n} {s : σ} {e : Abort}
    (h : (foldRows p x f (List.finRange m) q b s).1 = .error e) :
    ∃ (d : Fin m) (s₁ s₂ : σ), p.jacobianRow x d s₁ = (.error e, s₂) ∧
      foldRows p x f ((List.finRange m).take d) q b s =
        (.ok (), (foldRows p x f (List.finRange m) q b s).2.1,
          (foldRows p x f (List.finRange m) q b s).2.2.1, s₁) := by
  obtain ⟨done, d, rest, s₁, s₂, hlist, habort, hfold⟩ := foldRows_interrupted_list h
  obtain ⟨rfl, -⟩ := finRange_eq_append hlist
  exact ⟨d, s₁, s₂, habort, hfold⟩

/-! ### Linearizations -/

/-- A call for the Jacobian that is aborted leaves the state alone. -/
theorem analytic_interrupted {nm : Numerics α} {h : n ≤ m} {p : JacobianProblem σ α m n}
    {st : State α m m n} {s : σ} {e : Abort} (herror : (analytic nm h p st s).1 = .error e) :
    (analytic nm h p st s).2.1 = st := by
  rw [analytic] at herror ⊢
  rcases hjac : p.jacobian st.x s with ⟨e' | jac, s'⟩
  · rfl
  · simp only [hjac] at herror
    cases herror

/-- The Jacobian that is returned is factored with every column once. -/
theorem analytic_completed {nm : Numerics α} {h : n ≤ m} {p : JacobianProblem σ α m n}
    {st : State α m m n} {s : σ} {norms : Vec α n} (hok : (analytic nm h p st s).1 = .ok norms) :
    Function.Bijective (analytic nm h p st s).2.1.order.get := by
  rw [analytic] at hok ⊢
  rcases hjac : p.jacobian st.x s with ⟨e | jac, s'⟩
  · simp only [hjac] at hok
    cases hok
  · exact QR.bijective_order nm true jac

/-- Differences that are interrupted have overwritten the columns before with quotients. -/
theorem numerical_interrupted {nm : Numerics α} {h : n ≤ m} {c : Settings α} {p : Problem σ α m n}
    {st : State α m m n} {s : σ} {e : Abort} (herror : (numerical nm h c p st s).1 = .error e) :
    ∃ a, (numerical nm h c p st s).2.1 = { st with factor := a } ∧
      ∃ d : Fin n, AbortsAt p (relativeStep nm c.epsfcn) st.x d e ∧
        (∀ j < d, HoldsQuotients p (relativeStep nm c.epsfcn) st.x st.residuals a j) ∧
        ∀ j, d ≤ j → a.col j = st.factor.col j := by
  have hpoint := dense_point p nm c.epsfcn st.x st.residuals st.factor s
  rw [numerical] at herror ⊢
  rcases hdense : dense p nm c.epsfcn st.x st.residuals st.factor s with ⟨e' | _, y, a, s'⟩
  · simp only [hdense] at herror hpoint ⊢
    cases herror
    have hinterrupted := dense_interrupted (congrArg Prod.fst hdense)
    rw [hdense] at hinterrupted
    rw [hpoint]
    exact ⟨a, rfl, hinterrupted⟩
  · simp only [hdense] at herror
    cases herror

/-- Rows that are interrupted have been folded in by then, and the old factorization is lost. -/
theorem rowwise_interrupted {nm : Numerics α} {p : RowProblem σ α m n} {st : State α m n n} {s : σ}
    {e : Abort} (herror : (rowwise nm p st s).1 = .error e) :
    ∃ q b, (rowwise nm p st s).2.1 = { st with factor := q, rhs := b } ∧
      ∃ (d : Fin m) (s₁ s₂ : σ), p.jacobianRow st.x d s₁ = (.error e, s₂) ∧
        foldRows p st.x st.residuals ((List.finRange m).take d) (Mat.zero n n) (Vec.zero n) s =
          (.ok (), q, b, s₁) := by
  rw [rowwise] at herror ⊢
  rcases hfold : foldRows p st.x st.residuals (List.finRange m) (Mat.zero n n) (Vec.zero n) s with
    ⟨e' | _, q, b, s'⟩
  · simp only [hfold] at herror ⊢
    cases herror
    have hinterrupted := foldRows_interrupted (congrArg Prod.fst hfold)
    rw [hfold] at hinterrupted
    exact ⟨q, b, rfl, hinterrupted⟩
  · simp only [hfold] at herror
    cases herror

/-! ### Solves -/

/-- In a solve with these moments the linearization in the move after the moment `i` is aborted, and
the last one that was completed is that after the moment `k`. -/
structure Interrupted (course : Nat → Moment σ α n (State α m r n))
    (attempts : Moment σ α n (State α m r n) → Attempt) (k i : Nat) (a : Abort) : Prop where
  completed : attempts (course k) = .completed
  last (j : Nat) : k < j → attempts (course j) ≠ .completed
  aborted : attempts (course i) = .aborted a

/-- After a linearization is aborted, the solve has ended with what was written. -/
theorem next_of_aborted (nm : Numerics α) {c : Config α} (budget : Nat) (h : n ≤ r)
    {p : Problem σ α m n} {linearize : Linearize σ α m r n}
    (accepts : Acceptance (State α m r n) α m n) {mo : Moment σ α n (State α m r n)} {a : Abort}
    (hattempt : mo.attempt (attempt c.toSettings p linearize) = .aborted a) :
    ∃ s, (linearize mo.state s).1 = .error a ∧
      (method nm c budget h p linearize).next accepts p mo =
        ⟨.ended (.user a), (linearize mo.state s).2.1, (linearize mo.state s).2.2, mo.base⟩ := by
  obtain ⟨stage, st, s, b⟩ := mo
  cases stage with
  | ready =>
    have hst : attempt c.toSettings p linearize st s = .aborted a := hattempt
    rcases hs : linearizesFrom? c.toSettings p st s with _ | s'
    · rw [attempt, hs] at hst
      cases hst
    · refine ⟨s', ?_⟩
      rw [attempt, hs] at hst
      rw [Method.next_ready]
      change _ ∧ Moment.mk (Stage.ofPreparation (prepare nm c h p linearize st s).1)
        (prepare nm c h p linearize st s).2.1 (prepare nm c h p linearize st s).2.2 b = _
      rw [prepare_of_linearizes hs]
      rcases hlin : linearize st s' with ⟨e | norms, st', s''⟩
      all_goals
        simp only [hlin] at hst
        cases hst
      exact ⟨rfl, rfl⟩
  | prepared => cases hattempt
  | proposed t => cases hattempt
  | ended reason => cases hattempt

section Run

variable {nm : Numerics α} {c : Config α} {patience : Nat} {p : Problem σ α m n}
  {rows : n ≤ m → n ≤ r} {linearize : n ≤ m → Linearize σ α m r n} {x : Vec α n} {s : σ}

/-- A solve that linearizes has proper input. -/
theorem proper_of_attempts {k : Nat}
    (hk : attempts c p linearize (course nm c patience p rows linearize x s k) ≠ .omitted) :
    ∃ h : n ≤ m, c.fault? n = none ∧
      attempts c p linearize = Moment.attempt (attempt c.toSettings p (linearize h)) := by
  by_cases h : n ≤ m
  · refine ⟨h, ?_, funext fun _ => dif_pos h⟩
    rcases hc : c.fault? n with _ | e
    · rfl
    · -- a solve whose input is rejected has no round
      rw [attempts, dif_pos h, course, dif_pos h, hc] at hk
      exact absurd rfl hk
  · rw [attempts, dif_neg h] at hk
    exact absurd rfl hk

/-- An aborted linearization ends the solve, so there is no attempt after it. -/
theorem attempts_of_aborted_lt {i j : Nat} (hij : i < j) {a : Abort}
    (hi : attempts c p linearize (course nm c patience p rows linearize x s i) = .aborted a) :
    attempts c p linearize (course nm c patience p rows linearize x s j) = .omitted := by
  obtain ⟨h, hc, hattempts⟩ := proper_of_attempts (by rw [hi]; exact fun h => by cases h)
  rw [hattempts, course_eq h hc] at hi ⊢
  obtain ⟨s', -, hnext⟩ := next_of_aborted nm (c.budget patience n) (rows h)
    (accepts nm (rows h)) hi
  rw [← Method.course_succ] at hnext
  rw [Method.course_of_ended hij hnext]
  rfl

/-- A solve is interrupted where a linearization is aborted, if the last one before was
completed. -/
theorem interrupted_of_aborted {k i : Nat} {a : Abort}
    (hk : attempts c p linearize (course nm c patience p rows linearize x s k) = .completed)
    (hbetween : ∀ j < i, k < j →
      attempts c p linearize (course nm c patience p rows linearize x s j) ≠ .completed)
    (hi : attempts c p linearize (course nm c patience p rows linearize x s i) = .aborted a) :
    Interrupted (course nm c patience p rows linearize x s) (attempts c p linearize) k i a := by
  refine ⟨hk, ?_, hi⟩
  intro j hkj hj
  obtain hlt | rfl | hlt := lt_trichotomy j i
  · exact hbetween j hlt hkj hj
  · rw [hi] at hj
    cases hj
  · rw [attempts_of_aborted_lt hlt hi] at hj
    cases hj

/-- Between the last completed linearization and the aborted one nothing is linearized. -/
theorem Interrupted.omitted {k i : Nat} {a : Abort}
    (hint : Interrupted (course nm c patience p rows linearize x s) (attempts c p linearize) k i a)
    {j : Nat} (hkj : k < j) (hji : j < i) :
    attempts c p linearize (course nm c patience p rows linearize x s j) = .omitted := by
  have haborted := hint.aborted
  rcases hattempt : attempts c p linearize (course nm c patience p rows linearize x s j) with
    _ | _ | b
  · rfl
  · exact absurd hattempt (hint.last j hkj)
  · rw [attempts_of_aborted_lt hji hattempt] at haborted
    cases haborted

/-- The aborted linearization comes after the last completed one. -/
theorem Interrupted.lt {k i : Nat} {a : Abort}
    (hint : Interrupted (course nm c patience p rows linearize x s) (attempts c p linearize) k i
      a) : k < i := by
  obtain ⟨hcompleted, -, haborted⟩ := hint
  by_contra hlt
  obtain hik | rfl : i < k ∨ i = k := by omega
  · rw [attempts_of_aborted_lt hik haborted] at hcompleted
    cases hcompleted
  · rw [haborted] at hcompleted
    cases hcompleted

/-- After a completed linearization the state holds its factorization. -/
theorem exists_factorization_of_completed {k : Nat}
    (hk : attempts c p linearize (course nm c patience p rows linearize x s k) = .completed) :
    let st := (course nm c patience p rows linearize x s k).state
    ∃ (h : n ≤ m) (s' : σ) (norms : Vec α n), (linearize h st s').1 = .ok norms ∧
      (linearize h st s').2.1.SameFactorization
        (course nm c patience p rows linearize x s (k + 1)).state := by
  obtain ⟨h, hc, hattempts⟩ := proper_of_attempts (by rw [hk]; exact fun h => by cases h)
  rw [hattempts] at hk
  rw [course_eq h hc] at hk ⊢
  obtain ⟨s', norms, -, -, hok, hnext⟩ := next_of_completed nm (c.budget patience n) (rows h)
    (accepts nm (rows h)) hk
  refine ⟨h, s', norms, hok, ?_⟩
  rw [Method.course_succ, hnext]
  exact factorization_adapt nm c (rows h) _ norms

/-- As long as nothing is linearized, the factorization stays as it is. -/
theorem factorization_course_of_omitted (h : n ≤ m) (hc : c.fault? n = none) {i j : Nat}
    (hij : i ≤ j)
    (homitted : ∀ k, i ≤ k → k < j →
      attempts c p linearize (course nm c patience p rows linearize x s k) = .omitted) :
    (course nm c patience p rows linearize x s i).state.SameFactorization
      (course nm c patience p rows linearize x s j).state := by
  have hattempts : attempts c p linearize =
      Moment.attempt (attempt c.toSettings p (linearize h)) := funext fun _ => dif_pos h
  rw [course_eq h hc] at homitted ⊢
  simp only [hattempts] at homitted
  induction j, hij using Nat.le_induction with
  | base => exact .refl _
  | succ j hij ih =>
    rw [Method.course_succ]
    exact (ih fun k hik hkj => homitted k hik (Nat.lt_succ_of_lt hkj)).trans
      (factorization_next_of_omitted nm (c.budget patience n) (rows h) (accepts nm (rows h))
        (homitted j hij (Nat.lt_succ_self j)))

/-- A solve that is interrupted reports what the linearization has left of the last factorization
that was completed. -/
theorem Interrupted.exists_linearize (hl : ∀ h, (linearize h).Recounts) (hpat : 0 < patience)
    {k i : Nat} {a : Abort}
    (hint : Interrupted (course nm c patience p rows linearize x s) (attempts c p linearize) k i
      a) :
    let st := (course nm c patience p rows linearize x s i).state
    let last := (course nm c patience p rows linearize x s (k + 1)).state
    ∃ (h : n ≤ m) (s' : σ), (linearize h st s').1 = .error a ∧
      (run nm c patience p rows linearize x s).1 = (linearize h st s').2.1.report (.user a) ∧
      last.SameFactorization st := by
  intro st last
  have haborted := hint.aborted
  obtain ⟨h, hc, hattempts⟩ := proper_of_attempts (by rw [haborted]; exact fun h => by cases h)
  have hkeeps := factorization_course_of_omitted h hc hint.lt fun j => hint.omitted
  obtain ⟨k₀, hend⟩ := exists_course_report nm c p rows x s hl hpat
  rw [hattempts] at haborted
  simp only [st, last]
  rw [course_eq h hc] at haborted hend hkeeps ⊢
  obtain ⟨s', herror, hnext⟩ := next_of_aborted nm (c.budget patience n) (rows h)
    (accepts nm (rows h)) haborted
  refine ⟨h, s', herror, ?_, hkeeps⟩
  -- the solve has ended in the next moment, and so it is the state of that one that is reported
  rw [← Method.course_succ] at hnext
  obtain ⟨hstage, hreport⟩ := hend (i + 1 + k₀) (by omega)
  rw [Method.course_of_ended (Nat.le_add_right _ _) hnext] at hstage hreport
  rw [← hreport, ← Stage.ended.inj hstage]

end Run

end LeastSquares

end NonlinearSolve

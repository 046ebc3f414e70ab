import NonlinearSolve.Proofs.Course.Descent

/-! # Ending at zero residuals

A method may end a solve as soon as it accepts residuals that are exactly zero
(`Method.EndsAtZero`), or go on until one of its tests is met. If it only accepts descents, this
makes no difference to the iterate: up to the moment where the residuals are zero the two solves are
the same (`EndsAtZero.course_cases`), and from then on no step can be accepted any more
(`EndsAtZero.agreesUpToZero`). -/

namespace NonlinearSolve

namespace Method

variable {σ τ ρ : Type} {m n : Nat}

/-- The method `me` is `me'` but for one verdict: it ends a solve as soon as it accepts residuals of
norm zero. -/
structure EndsAtZero (me me' : Method σ ℝ m n τ) (accepts : Acceptance τ ℝ m n) (nm : Numerics ℝ) :
    Prop where
  start : me.start = me'.start
  iterate : me.iterate = me'.iterate
  prepare : me.prepare = me'.prepare
  propose : me.propose = me'.propose
  judge (st : τ) (t : Proposal ℝ n) (f : Vec ℝ m) :
    me.judge st t f =
      (if accepts st t f && nm.vecNorm f == 0 then some .residualsZero else (me'.judge st t f).1,
        (me'.judge st t f).2)

/-- Two solves of a problem agree, the first of which ends at zero residuals and the second of which
goes on. What they report of the iterate is the same; all of it is the same unless zero residuals
are met, at the start or at an accepted step; and after these the second solve accepts no step. -/
structure AgreesUpToZero (accepts : Acceptance τ ℝ m n) (p : Problem σ ℝ m n) (x : Vec ℝ n) (s : σ)
    (course course' : Nat → Moment σ ℝ n τ) (summary : ρ → Summary ℝ m n) (out out' : ρ × σ) :
    Prop where
  x_eq : (summary out'.1).x = (summary out.1).x
  residuals_eq : (summary out'.1).residuals = (summary out.1).residuals
  residualNorm_eq : (summary out'.1).residualNorm = (summary out.1).residualNorm
  out_eq : (∀ s', p.evaluate x s ≠ (.ok (Vec.zero m), s')) →
    (∀ k t, ¬ AcceptsStep accepts p (course k) t (Vec.zero m)) → out' = out
  rests_of_start {s' : σ} : p.evaluate x s = (.ok (Vec.zero m), s') →
    ∀ k t v, ¬ AcceptsStep accepts p (course' k) t v
  rests_of_accepted {k : Nat} {t : Proposal ℝ n} :
    AcceptsStep accepts p (course' k) t (Vec.zero m) →
    ∀ j u v, k < j → ¬ AcceptsStep accepts p (course' j) u v

/-- The first of two solves has ended at zero residuals, and the iterate of the second one is still
in the same position. -/
structure HasEnded (me' : Method σ ℝ m n τ) (mo mo' : Moment σ ℝ n τ) : Prop where
  stage : mo.stage = .ended .residualsZero
  position_eq : (me'.iterate mo'.state).position = (me'.iterate mo.state).position
  residualNorm_eq : (me'.iterate mo'.state).residualNorm = 0

section Rest

variable {me : Method σ ℝ m n τ} {accepts : Acceptance τ ℝ m n} {p : Problem σ ℝ m n}
  {c : Settings ℝ} {x : Vec ℝ n} {s : σ} {ε δ : ℝ} {z : Bool}

/-- No descent starts at zero residuals. -/
theorem AcceptsDescent.not_acceptsStep (hdesc : me.AcceptsDescent accepts (Numerics.exact ε δ z))
    {mo : Moment σ ℝ n τ} (hzero : (me.iterate mo.state).residualNorm ≤ 0) (t : Proposal ℝ n)
    (v : Vec ℝ m) : ¬ AcceptsStep accepts p mo t v := by
  intro hacc
  have hlt := hdesc mo.state t v hacc.accepted
  have hnonneg := Numerics.vecNorm_exact_nonneg ε δ z v
  linarith

/-- Once the residuals are zero, no step is accepted any more. -/
theorem Steady.not_acceptsStep (hme : me.Steady accepts (Numerics.exact ε δ z))
    (hdesc : me.AcceptsDescent accepts (Numerics.exact ε δ z)) {k j : Nat} (hkj : k ≤ j)
    (hzero : (me.iterate (me.course accepts (Numerics.exact ε δ z) c p x s k).state).residualNorm =
      0) (t : Proposal ℝ n) (v : Vec ℝ m) :
    ¬ AcceptsStep accepts p (me.course accepts (Numerics.exact ε δ z) c p x s j) t v := by
  refine hdesc.not_acceptsStep ?_ t v
  exact (hme.antitone_residualNorm hdesc hkj).trans hzero.le

end Rest

namespace EndsAtZero

variable {me me' : Method σ ℝ m n τ} {accepts : Acceptance τ ℝ m n} {p : Problem σ ℝ m n}
  {c : Settings ℝ} {x : Vec ℝ n} {s : σ} {ε δ : ℝ}

section Moves

variable (h : me.EndsAtZero me' accepts (Numerics.exact ε δ true))
  (hme : me'.Steady accepts (Numerics.exact ε δ false))

include h hme

/-- From one moment on, the two methods make the same move, or one of them ends with an accepted
step to zero residuals. -/
theorem next_cases (mo : Moment σ ℝ n τ) :
    me.next accepts p mo = me'.next accepts p mo ∨
      (∃ t, AcceptsStep accepts p mo t (Vec.zero m)) ∧
        HasEnded me' (me.next accepts p mo) (me'.next accepts p mo) := by
  obtain ⟨stage, st, s, b⟩ := mo
  cases stage with
  | ready => exact Or.inl (by rw [next_ready, next_ready, h.prepare])
  | prepared => exact Or.inl (by rw [next_prepared, next_prepared, h.propose])
  | proposed t =>
    rcases heval : p.evaluate t.point s with ⟨e | f, s'⟩
    · exact Or.inl (by rw [next_proposed_of_error heval, next_proposed_of_error heval])
    · rw [next_proposed_of_ok heval, next_proposed_of_ok heval, h.judge]
      by_cases hzero : (accepts st t f && (Numerics.exact ε δ true).vecNorm f == 0) = true
      · -- the only verdict in which the methods differ
        obtain ⟨hacc, hnorm⟩ := (Bool.and_eq_true _ _).mp hzero
        have hf : f = Vec.zero m :=
          (Numerics.vecNorm_exact_eq_zero f).1 ((Exact.beq_iff _ _).1 hnorm)
        have hjudge := congrArg Position.residualNorm (hme.judge st t f)
        rw [if_pos hacc] at hjudge
        subst hf
        refine Or.inr ⟨⟨t, rfl, ⟨s', heval⟩, hacc⟩, ?_, rfl, ?_⟩
        · simp only [if_pos hzero, Stage.ofVerdict]
        · exact hjudge.trans (Numerics.vecNorm_exact_zero ε δ false m)
      · exact Or.inl (by rw [if_neg hzero])
  | ended reason => exact Or.inl rfl

omit h in
/-- The iterate stays where it was when the other solve ended. -/
theorem hasEnded_next (hdesc : me'.AcceptsDescent accepts (Numerics.exact ε δ false))
    {mo mo' : Moment σ ℝ n τ} (hend : HasEnded me' mo mo') :
    HasEnded me' (me.next accepts p mo) (me'.next accepts p mo') := by
  obtain ⟨stage, st, s, b⟩ := mo
  obtain ⟨hstage, hpos, hzero⟩ := hend
  obtain rfl : stage = .ended .residualsZero := hstage
  obtain hrest | ⟨t, v, hacc⟩ := hme.position_next_cases (p := p) mo'
  · refine ⟨rfl, hrest.trans hpos, ?_⟩
    exact (congrArg Position.residualNorm hrest).trans hzero
  · exact absurd hacc (hdesc.not_acceptsStep hzero.le t v)

omit hme in
/-- The two solves open in the same way, unless the residuals are zero at the start. -/
theorem opening_cases (hstart : ∀ it, me'.iterate (me'.start it) = it) :
    me.opening (Numerics.exact ε δ true) c p x s =
        me'.opening (Numerics.exact ε δ false) c p x s ∨
      (∃ s', p.evaluate x s = (.ok (Vec.zero m), s')) ∧
        HasEnded me' (me.opening (Numerics.exact ε δ true) c p x s)
          (me'.opening (Numerics.exact ε δ false) c p x s) := by
  rcases hfirst : p.evaluate x s with ⟨e | f, s'⟩
  · have heval : p.evaluate (Iterate.start (m := m) c x).x s = (.error e, s') := hfirst
    left
    simp only [opening, Iterate.evaluate, heval, h.start]
  · have heval : p.evaluate (Iterate.start (m := m) c x).x s = (.ok f, s') := hfirst
    by_cases hnorm : (Numerics.exact ε δ true).vecNorm f = 0
    · have hbeq : ((Numerics.exact ε δ true).vecNorm f == 0) = true := (Exact.beq_iff _ _).2 hnorm
      obtain rfl : f = Vec.zero m := (Numerics.vecNorm_exact_eq_zero f).1 hnorm
      refine Or.inr ⟨⟨s', rfl⟩, ?_, ?_, ?_⟩
      · simp only [opening, Iterate.evaluate, heval, hbeq]
        rfl
      · simp only [opening, Iterate.evaluate, heval, h.start]
        rfl
      · simp only [opening, Iterate.evaluate, heval, hstart]
        exact Numerics.vecNorm_exact_zero ε δ false m
    · have hbeq : ((Numerics.exact ε δ true).vecNorm f == 0) = false :=
        (Exact.beq_eq_false_iff _ _).2 hnorm
      left
      simp only [opening, Iterate.evaluate, heval, h.start, hbeq, Bool.and_false]
      rfl

/-- At every moment the two solves are the same, or the first one has ended at zero residuals. -/
theorem course_cases (hdesc : me'.AcceptsDescent accepts (Numerics.exact ε δ false)) (k : Nat) :
    me.course accepts (Numerics.exact ε δ true) c p x s k =
        me'.course accepts (Numerics.exact ε δ false) c p x s k ∨
      ((∃ s', p.evaluate x s = (.ok (Vec.zero m), s')) ∨
        ∃ i t, AcceptsStep accepts p (me.course accepts (Numerics.exact ε δ true) c p x s i) t
          (Vec.zero m)) ∧
        HasEnded me' (me.course accepts (Numerics.exact ε δ true) c p x s k)
          (me'.course accepts (Numerics.exact ε δ false) c p x s k) := by
  induction k with
  | zero =>
    obtain heq | ⟨hstart, hend⟩ := h.opening_cases (c := c) (p := p) (x := x) (s := s) hme.start
    · exact Or.inl heq
    · exact Or.inr ⟨Or.inl hstart, hend⟩
  | succ k ih =>
    rw [course_succ, course_succ]
    obtain heq | ⟨hzero, hend⟩ := ih
    · obtain hnext | ⟨⟨t, hacc⟩, hend⟩ := h.next_cases hme (p := p)
        (me.course accepts (Numerics.exact ε δ true) c p x s k)
      · exact Or.inl (by rw [hnext, heq])
      · rw [← heq]
        exact Or.inr ⟨Or.inr ⟨k, t, hacc⟩, hend⟩
    · exact Or.inr ⟨hzero, hasEnded_next hme hdesc hend⟩

end Moves

/-- Solves by two such methods that keep to their budget agree up to zero residuals. -/
theorem agreesUpToZero (h : me.EndsAtZero me' accepts (Numerics.exact ε δ true))
    (hme : me'.Steady accepts (Numerics.exact ε δ false))
    (hdesc : me'.AcceptsDescent accepts (Numerics.exact ε δ false)) {budget : Nat}
    (hb : me.KeepsBudget budget) (hb' : me'.KeepsBudget budget) (hpos : 0 < budget)
    (report : τ → Termination → ρ) (summary : ρ → Summary ℝ m n)
    (hsummary : ∀ st reason, summary (report st reason) = (me'.iterate st).summary reason) :
    let sol := me.run (Numerics.exact ε δ true) c budget p x s
    let sol' := me'.run (Numerics.exact ε δ false) c budget p x s
    AgreesUpToZero accepts p x s (me.course accepts (Numerics.exact ε δ true) c p x s)
      (me'.course accepts (Numerics.exact ε δ false) c p x s) summary
      (report sol.2.1 sol.1, sol.2.2) (report sol'.2.1 sol'.1, sol'.2.2) := by
  intro sol sol'
  have hstart : ∀ it, me.iterate (me.start it) = it := by
    rw [h.start, h.iterate]
    exact hme.start
  -- both solves have ended in the later one of their last moments
  obtain ⟨k, b, hk⟩ := hb.exists_course_ended accepts p hpos hstart (Numerics.exact ε δ true) c x s
  obtain ⟨l, b', hl⟩ := hb'.exists_course_ended accepts p hpos hme.start
    (Numerics.exact ε δ false) c x s
  have hcases := h.course_cases hme (c := c) (p := p) (x := x) (s := s) hdesc (max k l)
  rw [course_of_ended (Nat.le_max_left k l) hk, course_of_ended (Nat.le_max_right k l) hl] at hcases
  have hposition : (me'.iterate sol'.2.1).position = (me'.iterate sol.2.1).position := by
    simp only [sol, sol', run_eq]
    obtain heq | ⟨-, -, hend, -⟩ := hcases
    · exact congrArg (fun mo => (me'.iterate mo.state).position) heq.symm
    · exact hend
  refine ⟨?_, ?_, ?_, ?_, ?_, ?_⟩
  · simp only [hsummary]
    exact congrArg Position.x hposition
  · simp only [hsummary]
    exact congrArg Position.residuals hposition
  · simp only [hsummary]
    exact congrArg Position.residualNorm hposition
  · intro hfirst haccepted
    obtain heq | ⟨⟨s', hzero⟩ | ⟨i, t, hacc⟩, -⟩ := hcases
    · rw [Moment.mk.injEq, Stage.ended.injEq] at heq
      obtain ⟨hreason, hst, hs, -⟩ := heq
      simp only [sol, sol', run_eq, hreason, hst, hs, h.iterate]
    · exact absurd hzero (hfirst s')
    · exact absurd hacc (haccepted i t)
  · intro s' hfirst k t v
    refine hme.not_acceptsStep hdesc (Nat.zero_le k) ?_ t v
    exact (hme.residualNorm_opening hfirst).trans (Numerics.vecNorm_exact_zero ε δ false m)
  · intro k t hacc j u v hkj
    refine hme.not_acceptsStep hdesc (Nat.succ_le_of_lt hkj) ?_ u v
    rw [course_succ]
    have hmove := hme.position_next_of_accepted hacc
    exact (congrArg Position.residualNorm hmove).trans (Numerics.vecNorm_exact_zero ε δ false m)

end EndsAtZero

end Method

end NonlinearSolve

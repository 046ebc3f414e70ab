import NonlinearSolve.Proofs.Course.Moments

/-! # The iterate in the course of a solve

The position of an iterate is what only an accepted step may change: the point, the residuals there
with their norm, and the number of the iteration. A method is steady (`Method.Steady`) if its parts
keep to that. In every solve by a steady method the iterate is then at every moment the starting
point or the point of the last accepted step, with the residuals that belong to it
(`Method.Steady.tracks`). -/

namespace NonlinearSolve

variable {σ α τ : Type} {m n : Nat}

/-- The part of an iterate that only an accepted step may change. -/
structure Position (α : Type) (m n : Nat) where
  /-- The iterate. -/
  x : Vec α n
  /-- The residuals at the iterate. -/
  residuals : Vec α m
  /-- The norm of the residuals. -/
  residualNorm : α
  /-- The number of the iteration. -/
  iteration : Nat

/-- The position of an iterate. -/
def Iterate.position (it : Iterate α m n) : Position α m n :=
  ⟨it.x, it.residuals, it.residualNorm, it.iteration⟩

/-- The position `x` with the residuals `f x` and their norm. -/
def Position.At (nm : Numerics α) (f : Vec α n → Vec α m) (x : Vec α n) (q : Position α m n) :
    Prop :=
  q.x = x ∧ q.residuals = f x ∧ q.residualNorm = nm.vecNorm (f x)

/-- The iterate `it'` is `it` with other counts, none of which has been taken back. -/
structure Iterate.Recounted (it it' : Iterate α m n) : Prop where
  evaluations : it.evaluations ≤ it'.evaluations
  jacobians : it.jacobians ≤ it'.jacobians
  eq : it' = { it with evaluations := it'.evaluations, jacobians := it'.jacobians }

namespace Iterate.Recounted

/-- An iterate is a recount of itself. -/
theorem refl (it : Iterate α m n) : it.Recounted it := ⟨Nat.le_refl _, Nat.le_refl _, rfl⟩

/-- Counting does not move the iterate. -/
theorem position_eq {it it' : Iterate α m n} (h : it.Recounted it') :
    it'.position = it.position := by
  rw [h.eq]
  rfl

end Iterate.Recounted

/-! ### What the operations on iterates leave alone -/

namespace Iterate

variable [Scalar α] (nm : Numerics α) (c : Settings α) (it : Iterate α m n)

/-- Calibrating the scaling leaves the position alone. -/
@[simp] theorem position_calibrate (norms : Vec α n) :
    (it.calibrate nm c norms).position = it.position := by
  rw [calibrate]
  split <;> rfl

/-- Calibrating the scaling evaluates nothing. -/
@[simp] theorem evaluations_calibrate (norms : Vec α n) :
    (it.calibrate nm c norms).evaluations = it.evaluations := by
  rw [calibrate]
  split <;> rfl

/-- Calibrating the scaling computes no Jacobian. -/
@[simp] theorem jacobians_calibrate (norms : Vec α n) :
    (it.calibrate nm c norms).jacobians = it.jacobians := by
  rw [calibrate]
  split <;> rfl

/-- Enlarging the scale factors leaves the position alone. -/
@[simp] theorem position_rescale (norms : Vec α n) :
    (it.rescale c norms).position = it.position := rfl

/-- Enlarging the scale factors evaluates nothing. -/
@[simp] theorem evaluations_rescale (norms : Vec α n) :
    (it.rescale c norms).evaluations = it.evaluations := rfl

/-- Proposing a step leaves the position alone. -/
@[simp] theorem position_propose (step : Vec α n) :
    (it.propose nm step).2.position = it.position := rfl

/-- A proposed step is counted as the evaluation it is about to cost. -/
@[simp] theorem evaluations_propose (step : Vec α n) :
    (it.propose nm step).2.evaluations = it.evaluations + 1 := rfl

end Iterate

/-! ### Steady methods -/

/-- Whenever the residuals can be evaluated at all, they are those of the function `f`. -/
def Problem.Computes (p : Problem σ α m n) (f : Vec α n → Vec α m) : Prop :=
  ∀ x s v s', p.evaluate x s = (.ok v, s') → v = f x

namespace Method

/-- A method that moves its iterate by accepting a step and in no other way. -/
structure Steady (me : Method σ α m n τ) (accepts : Acceptance τ α m n) (nm : Numerics α) :
    Prop where
  start (it : Iterate α m n) : me.iterate (me.start it) = it
  prepare (st : τ) (s : σ) :
    (me.iterate (me.prepare st s).2.1).position = (me.iterate st).position
  propose (st : τ) : (me.iterate (me.propose st).2).position = (me.iterate st).position
  judge (st : τ) (t : Proposal α n) (f : Vec α m) :
    (me.iterate (me.judge st t f).2).position =
      if accepts st t f then ⟨t.point, f, nm.vecNorm f, (me.iterate st).iteration + 1⟩
      else (me.iterate st).position

/-- A solve of the residuals `f` tracks the iterate: at every moment it is at the base, the starting
point or the point of the last accepted step; a rejected step changes nothing of its position; and
the summary shows it with the residuals that belong to it. -/
structure Tracks [Scalar α] (me : Method σ α m n τ) (accepts : Acceptance τ α m n)
    (nm : Numerics α) (c : Settings α) (p : Problem σ α m n) (f : Vec α n → Vec α m) (x : Vec α n)
    (s : σ) (sm : Summary α m n) : Prop where
  at_base (k : Nat) :
    (me.iterate (me.course accepts nm c p x s k).state).position.At nm f
      (me.course accepts nm c p x s k).base
  rejected (k : Nat) (t : Proposal α n) (v : Vec α m) (s' : σ) :
    (me.course accepts nm c p x s k).stage = .proposed t →
    p.evaluate t.point (me.course accepts nm c p x s k).world = (.ok v, s') →
    accepts (me.course accepts nm c p x s k).state t v = false →
    (me.iterate (me.course accepts nm c p x s (k + 1)).state).position =
      (me.iterate (me.course accepts nm c p x s k).state).position
  reported : ∃ k reason, (me.course accepts nm c p x s k).stage = .ended reason ∧
    sm = (me.iterate (me.course accepts nm c p x s k).state).summary reason
  summary_residuals : sm.residuals = f sm.x
  summary_residualNorm : sm.residualNorm = nm.vecNorm sm.residuals

variable {me : Method σ α m n τ} {accepts : Acceptance τ α m n} {nm : Numerics α}
  {p : Problem σ α m n} {f : Vec α n → Vec α m}

/-- What a move does to the position and the base: it leaves both alone or accepts a step. -/
theorem Steady.next_cases (hme : me.Steady accepts nm) (mo : Moment σ α n τ) :
    ((me.iterate (me.next accepts p mo).state).position = (me.iterate mo.state).position ∧
      (me.next accepts p mo).base = mo.base) ∨
    ∃ t v s', mo.stage = .proposed t ∧ p.evaluate t.point mo.world = (.ok v, s') ∧
      accepts mo.state t v = true ∧
      (me.iterate (me.next accepts p mo).state).position =
        ⟨t.point, v, nm.vecNorm v, (me.iterate mo.state).iteration + 1⟩ ∧
      (me.next accepts p mo).base = t.point := by
  obtain ⟨stage, st, s, b⟩ := mo
  cases stage with
  | ready =>
    rw [next_ready]
    exact Or.inl ⟨hme.prepare st s, rfl⟩
  | prepared =>
    rw [next_prepared]
    exact Or.inl ⟨hme.propose st, rfl⟩
  | proposed t =>
    -- the only moves with a verdict, and so the only ones that can accept a step
    rcases heval : p.evaluate t.point s with ⟨e | v, s'⟩
    · rw [next_proposed_of_error heval]
      exact Or.inl ⟨rfl, rfl⟩
    · have hjudge := hme.judge st t v
      rw [next_proposed_of_ok heval]
      by_cases hacc : accepts st t v = true
      · rw [if_pos hacc] at hjudge
        exact Or.inr ⟨t, v, s', rfl, heval, hacc, hjudge, if_pos hacc⟩
      · rw [if_neg hacc] at hjudge
        exact Or.inl ⟨hjudge, if_neg hacc⟩
  | ended reason => exact Or.inl ⟨rfl, rfl⟩

/-- A rejected step leaves the position alone. -/
theorem Steady.position_next_of_rejected (hme : me.Steady accepts nm) {mo : Moment σ α n τ}
    {t : Proposal α n} {v : Vec α m} {s' : σ} (hstage : mo.stage = .proposed t)
    (heval : p.evaluate t.point mo.world = (.ok v, s')) (hrej : accepts mo.state t v = false) :
    (me.iterate (me.next accepts p mo).state).position = (me.iterate mo.state).position := by
  obtain ⟨hpos, -⟩ | ⟨t', v', s'', hstage', heval', hacc, -⟩ := hme.next_cases (p := p) mo
  · exact hpos
  · -- the step of the second case is the rejected one, which it says to be accepted
    rw [hstage] at hstage'
    cases hstage'
    rw [heval] at heval'
    cases heval'
    rw [hrej] at hacc
    cases hacc

/-- The iterate of a moment is at its base. -/
def AtBase (me : Method σ α m n τ) (nm : Numerics α) (f : Vec α n → Vec α m)
    (mo : Moment σ α n τ) : Prop :=
  (me.iterate mo.state).position.At nm f mo.base

/-- Every move keeps the iterate at the base. -/
theorem Steady.atBase_next (hme : me.Steady accepts nm) (hp : p.Computes f)
    {mo : Moment σ α n τ} (h : me.AtBase nm f mo) : me.AtBase nm f (me.next accepts p mo) := by
  rw [AtBase]
  obtain ⟨hpos, hbase⟩ | ⟨t, v, s', -, heval, -, hpos, hbase⟩ := hme.next_cases (p := p) mo
  · rw [hpos, hbase]
    exact h
  · have hv : v = f t.point := hp t.point mo.world v s' heval
    rw [hpos, hbase, hv]
    exact ⟨rfl, rfl, rfl⟩

/-- Whatever the residuals are, every move keeps the unknowns at the base. -/
theorem Steady.x_next (hme : me.Steady accepts nm) {mo : Moment σ α n τ}
    (h : (me.iterate mo.state).x = mo.base) :
    (me.iterate (me.next accepts p mo).state).x = (me.next accepts p mo).base := by
  obtain ⟨hpos, hbase⟩ | ⟨t, v, s', -, -, -, hpos, hbase⟩ := hme.next_cases (p := p) mo
  · rw [hbase, ← h]
    exact congrArg Position.x hpos
  · rw [hbase]
    exact congrArg Position.x hpos

variable [Scalar α] {c : Settings α} {x : Vec α n} {s : σ}

/-- After a successful first evaluation the iterate is at the starting point. -/
theorem Steady.atBase_opening (hme : me.Steady accepts nm) (hp : p.Computes f) {v : Vec α m}
    {s₁ : σ} (hfirst : p.evaluate x s = (.ok v, s₁)) :
    me.AtBase nm f (me.opening nm c p x s) := by
  have hv : v = f x := hp x s v s₁ hfirst
  have heval : p.evaluate (Iterate.start (m := m) c x).x s = (.ok v, s₁) := hfirst
  simp only [AtBase, opening, Iterate.evaluate, heval, hme.start]
  rw [hv]
  exact ⟨rfl, rfl, rfl⟩

/-- At every moment the unknowns are those of the starting point or of the last accepted step. -/
theorem Steady.x_course (hme : me.Steady accepts nm) (k : Nat) :
    (me.iterate (me.course accepts nm c p x s k).state).x =
      (me.course accepts nm c p x s k).base := by
  refine course_induction (motive := fun mo => (me.iterate mo.state).x = mo.base) ?_
    (fun _ => hme.x_next) k
  -- an abort of the first evaluation leaves the starting point as well
  rcases heval : p.evaluate (Iterate.start (m := m) c x).x s with ⟨e | v, s'⟩
  · simp only [opening, Iterate.evaluate, heval, hme.start]
    rfl
  · simp only [opening, Iterate.evaluate, heval, hme.start]
    rfl

/-- As long as a solve goes on, the norm is that of the residuals. -/
theorem Steady.residualNorm_course (hme : me.Steady accepts nm) (k : Nat)
    (hgoes : ∀ reason, (me.course accepts nm c p x s k).stage ≠ .ended reason) :
    (me.iterate (me.course accepts nm c p x s k).state).residualNorm =
      nm.vecNorm (me.iterate (me.course accepts nm c p x s k).state).residuals := by
  induction k with
  | zero =>
    -- the first evaluation has not been aborted
    rcases heval : p.evaluate (Iterate.start (m := m) c x).x s with ⟨e | v, s'⟩
    · refine absurd ?_ (hgoes (.user e))
      simp only [course_zero, opening, Iterate.evaluate, heval, Stage.ofVerdict]
    · simp only [course_zero, opening, Iterate.evaluate, heval, hme.start]
  | succ k ih =>
    have hbefore (reason : Termination) :
        (me.course accepts nm c p x s k).stage ≠ .ended reason := by
      intro hstage
      refine hgoes reason ?_
      rw [course_eq_of_stage (Nat.le_succ k) hstage]
      exact hstage
    rw [course_succ]
    obtain ⟨hpos, -⟩ | ⟨t, v, s', -, -, -, hpos, -⟩ :=
      hme.next_cases (p := p) (me.course accepts nm c p x s k)
    · have hk := ih hbefore
      have hnorm := congrArg Position.residualNorm hpos
      have hres := congrArg Position.residuals hpos
      simp only [Iterate.position] at hnorm hres
      rw [hnorm, hres]
      exact hk
    · exact (congrArg Position.residualNorm hpos).trans
        (congrArg nm.vecNorm (congrArg Position.residuals hpos).symm)

/-- In every solve by a steady method that keeps to its budget the iterate is tracked. -/
theorem Steady.tracks (hme : me.Steady accepts nm) {budget : Nat} (hb : me.KeepsBudget budget)
    (hpos : 0 < budget) (hp : p.Computes f) {v : Vec α m} {s₁ : σ}
    (hfirst : p.evaluate x s = (.ok v, s₁)) :
    me.Tracks accepts nm c p f x s
      ((me.iterate (me.solve nm c budget p x s).2.1).summary (me.solve nm c budget p x s).1) := by
  have hbase : ∀ k, me.AtBase nm f (me.course accepts nm c p x s k) :=
    course_induction (hme.atBase_opening hp hfirst) fun _ => hme.atBase_next hp
  -- the summary is taken at the moment in which the course ends
  obtain ⟨k, b, hk⟩ := hb.exists_course_ended accepts p hpos hme.start nm c x s
  have hend := hbase k
  rw [hk] at hend
  obtain ⟨hx, hresiduals, hnorm⟩ := hend
  refine ⟨hbase, ?_, ⟨k, (me.solve nm c budget p x s).1, by rw [hk], by rw [hk]⟩, ?_, ?_⟩
  · intro i t v' s' hstage heval hrej
    rw [course_succ]
    exact hme.position_next_of_rejected hstage heval hrej
  · exact hresiduals.trans (congrArg f hx.symm)
  · exact hnorm.trans (congrArg nm.vecNorm hresiduals.symm)

end Method

end NonlinearSolve

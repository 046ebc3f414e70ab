import NonlinearSolve.Proofs.Course.Iterates
import NonlinearSolve.Proofs.Exact.Arithmetic

/-! # Descent

If a method only accepts steps that reduce the norm of the residuals, this norm never grows in a
solve, and every step that is accepted makes it smaller than it has ever been. So no iterate of a
pure problem is accepted a second time, and what is reported is at least as good as the starting
point (`Method.Steady.descends`). -/

namespace NonlinearSolve

namespace Method

variable {σ τ : Type} {m n : Nat}

/-- At the moment `mo` the step to the proposal `t` is accepted, and `v` are the residuals there. -/
structure AcceptsStep {α : Type} (accepts : Acceptance τ α m n) (p : Problem σ α m n)
    (mo : Moment σ α n τ) (t : Proposal α n) (v : Vec α m) : Prop where
  stage : mo.stage = .proposed t
  evaluate : ∃ s', p.evaluate t.point mo.world = (.ok v, s')
  accepted : accepts mo.state t v = true

/-- An acceptance for which only smaller residuals will do. -/
def AcceptsDescent (me : Method σ ℝ m n τ) (accepts : Acceptance τ ℝ m n) (nm : Numerics ℝ) :
    Prop :=
  ∀ st t v, accepts st t v = true → nm.vecNorm v < (me.iterate st).residualNorm

/-- A solve descends: the iterate stays or moves to the point of an accepted step, where the norm of
the residuals is smaller than at the iterate and at all iterates before, and the summary shows
residuals that are not larger than those at the start. -/
structure Descends (me : Method σ ℝ m n τ) (accepts : Acceptance τ ℝ m n) (nm : Numerics ℝ)
    (c : Settings ℝ) (p : Problem σ ℝ m n) (x : Vec ℝ n) (s : σ) (sm : Summary ℝ m n) : Prop where
  position_cases (k : Nat) :
    (me.iterate (me.course accepts nm c p x s (k + 1)).state).position =
      (me.iterate (me.course accepts nm c p x s k).state).position ∨
    ∃ t v, AcceptsStep accepts p (me.course accepts nm c p x s k) t v
  position_of_accepted (k : Nat) (t : Proposal ℝ n) (v : Vec ℝ m) :
    AcceptsStep accepts p (me.course accepts nm c p x s k) t v →
    (me.iterate (me.course accepts nm c p x s (k + 1)).state).position =
      ⟨t.point, v, nm.vecNorm v,
        (me.iterate (me.course accepts nm c p x s k).state).iteration + 1⟩
  norm_lt (k : Nat) (t : Proposal ℝ n) (v : Vec ℝ m) :
    AcceptsStep accepts p (me.course accepts nm c p x s k) t v →
    nm.vecNorm v < (me.iterate (me.course accepts nm c p x s k).state).residualNorm
  norm_lt_of_lt (i j : Nat) (t u : Proposal ℝ n) (v w : Vec ℝ m) :
    i < j → AcceptsStep accepts p (me.course accepts nm c p x s i) t v →
    AcceptsStep accepts p (me.course accepts nm c p x s j) u w → nm.vecNorm w < nm.vecNorm v
  point_ne (f : Vec ℝ n → Vec ℝ m) (i j : Nat) (t u : Proposal ℝ n) (v w : Vec ℝ m) :
    p.Computes f → i < j → AcceptsStep accepts p (me.course accepts nm c p x s i) t v →
    AcceptsStep accepts p (me.course accepts nm c p x s j) u w → u.point ≠ t.point
  point_ne_start (f : Vec ℝ n → Vec ℝ m) (k : Nat) (t : Proposal ℝ n) (v : Vec ℝ m) :
    p.Computes f → AcceptsStep accepts p (me.course accepts nm c p x s k) t v → t.point ≠ x
  summary_le (v : Vec ℝ m) (s' : σ) :
    p.evaluate x s = (.ok v, s') → sm.residualNorm ≤ nm.vecNorm v

section Moves

variable {me : Method σ ℝ m n τ} {accepts : Acceptance τ ℝ m n} {nm : Numerics ℝ}
  {p : Problem σ ℝ m n} {mo : Moment σ ℝ n τ}

/-- An accepted step moves the iterate to the proposed point. -/
theorem Steady.position_next_of_accepted (hme : me.Steady accepts nm) {t : Proposal ℝ n}
    {v : Vec ℝ m} (h : AcceptsStep accepts p mo t v) :
    (me.iterate (me.next accepts p mo).state).position =
      ⟨t.point, v, nm.vecNorm v, (me.iterate mo.state).iteration + 1⟩ := by
  obtain ⟨stage, st, s, b⟩ := mo
  obtain ⟨hstage, ⟨s', heval⟩, hacc⟩ := h
  obtain rfl : stage = .proposed t := hstage
  have hjudge := hme.judge st t v
  rw [if_pos hacc] at hjudge
  rw [next_proposed_of_ok heval]
  exact hjudge

/-- A move leaves the position alone or is an accepted step. -/
theorem Steady.position_next_cases (hme : me.Steady accepts nm) (mo : Moment σ ℝ n τ) :
    (me.iterate (me.next accepts p mo).state).position = (me.iterate mo.state).position ∨
      ∃ t v, AcceptsStep accepts p mo t v := by
  obtain ⟨hpos, -⟩ | ⟨t, v, s', hstage, heval, hacc, -⟩ := hme.next_cases (p := p) mo
  · exact Or.inl hpos
  · exact Or.inr ⟨t, v, hstage, ⟨s', heval⟩, hacc⟩

/-- No move makes the norm of the residuals larger. -/
theorem Steady.residualNorm_next_le (hme : me.Steady accepts nm)
    (hdesc : me.AcceptsDescent accepts nm) (mo : Moment σ ℝ n τ) :
    (me.iterate (me.next accepts p mo).state).residualNorm ≤
      (me.iterate mo.state).residualNorm := by
  obtain hpos | ⟨t, v, hacc⟩ := hme.position_next_cases (p := p) mo
  · exact (congrArg Position.residualNorm hpos).le
  · have hnorm := congrArg Position.residualNorm (hme.position_next_of_accepted hacc)
    exact hnorm.le.trans (hdesc mo.state t v hacc.accepted).le

end Moves

section Course

variable {me : Method σ ℝ m n τ} {accepts : Acceptance τ ℝ m n} {nm : Numerics ℝ}
  {p : Problem σ ℝ m n} {c : Settings ℝ} {x : Vec ℝ n} {s : σ}

/-- Along a solve the norm of the residuals never grows. -/
theorem Steady.antitone_residualNorm (hme : me.Steady accepts nm)
    (hdesc : me.AcceptsDescent accepts nm) :
    Antitone fun k => (me.iterate (me.course accepts nm c p x s k).state).residualNorm := by
  refine antitone_nat_of_succ_le ?_
  intro k
  simp only [course_succ]
  exact hme.residualNorm_next_le hdesc _

/-- A step accepted later has smaller residuals. -/
theorem Steady.norm_lt_of_accepted (hme : me.Steady accepts nm)
    (hdesc : me.AcceptsDescent accepts nm) {i j : Nat} (hij : i < j) {t u : Proposal ℝ n}
    {v w : Vec ℝ m} (hi : AcceptsStep accepts p (me.course accepts nm c p x s i) t v)
    (hj : AcceptsStep accepts p (me.course accepts nm c p x s j) u w) :
    nm.vecNorm w < nm.vecNorm v := by
  -- right after the first of the two steps the iterate has its residuals
  have hpos := hme.position_next_of_accepted hi
  rw [← course_succ] at hpos
  calc nm.vecNorm w
      < (me.iterate (me.course accepts nm c p x s j).state).residualNorm :=
        hdesc _ u w hj.accepted
    _ ≤ (me.iterate (me.course accepts nm c p x s (i + 1)).state).residualNorm :=
        hme.antitone_residualNorm hdesc hij
    _ = nm.vecNorm v := congrArg Position.residualNorm hpos

/-- If the first evaluation succeeds, the solve opens with the norm of its residuals. -/
theorem Steady.residualNorm_opening (hme : me.Steady accepts nm) {v : Vec ℝ m} {s' : σ}
    (hfirst : p.evaluate x s = (.ok v, s')) :
    (me.iterate (me.opening nm c p x s).state).residualNorm = nm.vecNorm v := by
  have heval : p.evaluate (Iterate.start (m := m) c x).x s = (.ok v, s') := hfirst
  simp only [opening, Iterate.evaluate, heval, hme.start]

/-- Without a first evaluation no step is ever accepted. -/
theorem not_acceptsStep_of_error {e : Abort} {s' : σ} (hfirst : p.evaluate x s = (.error e, s'))
    (k : Nat) (t : Proposal ℝ n) (v : Vec ℝ m) :
    ¬ AcceptsStep accepts p (me.course accepts nm c p x s k) t v := by
  have heval : p.evaluate (Iterate.start (m := m) c x).x s = (.error e, s') := hfirst
  have hopen : me.course accepts nm c p x s 0 =
      ⟨.ended (.user e), me.start { Iterate.start c x with evaluations := 1 }, s', x⟩ := by
    simp only [course_zero, opening, Iterate.evaluate, heval, Stage.ofVerdict]
  rintro ⟨hstage, -, -⟩
  rw [course_of_ended (Nat.zero_le k) hopen] at hstage
  cases hstage

/-- A step that is accepted has smaller residuals than the starting point. -/
theorem Steady.norm_lt_start (hme : me.Steady accepts nm) (hdesc : me.AcceptsDescent accepts nm)
    {v₀ : Vec ℝ m} {s' : σ} (hfirst : p.evaluate x s = (.ok v₀, s')) {k : Nat} {t : Proposal ℝ n}
    {v : Vec ℝ m} (hk : AcceptsStep accepts p (me.course accepts nm c p x s k) t v) :
    nm.vecNorm v < nm.vecNorm v₀ :=
  calc nm.vecNorm v
      < (me.iterate (me.course accepts nm c p x s k).state).residualNorm :=
        hdesc _ t v hk.accepted
    _ ≤ (me.iterate (me.course accepts nm c p x s 0).state).residualNorm :=
        hme.antitone_residualNorm hdesc (Nat.zero_le k)
    _ = nm.vecNorm v₀ := hme.residualNorm_opening hfirst

/-- Every solve by a steady method that keeps to its budget and accepts descents only descends. -/
theorem Steady.descends (hme : me.Steady accepts nm) (hdesc : me.AcceptsDescent accepts nm)
    {budget : Nat} (hb : me.KeepsBudget budget) (hpos : 0 < budget) :
    me.Descends accepts nm c p x s
      ((me.iterate (me.solve nm c budget p x s).2.1).summary (me.solve nm c budget p x s).1) where
  position_cases k := by
    rw [course_succ]
    exact hme.position_next_cases _
  position_of_accepted k t v h := by
    rw [course_succ]
    exact hme.position_next_of_accepted h
  norm_lt k t v h := hdesc _ t v h.accepted
  norm_lt_of_lt i j t u v w hij hi hj := hme.norm_lt_of_accepted hdesc hij hi hj
  point_ne f i j t u v w hp hij hi hj := by
    intro hpoint
    -- at one point a pure problem has one residual vector, which cannot be smaller than itself
    obtain ⟨s₁, hv⟩ := hi.evaluate
    obtain ⟨s₂, hw⟩ := hj.evaluate
    have hlt := hme.norm_lt_of_accepted hdesc hij hi hj
    rw [hp _ _ _ _ hv, hp _ _ _ _ hw, hpoint] at hlt
    exact lt_irrefl _ hlt
  point_ne_start f k t v hp hk := by
    intro hpoint
    rcases hfirst : p.evaluate x s with ⟨e | v₀, s'⟩
    · exact not_acceptsStep_of_error hfirst k t v hk
    · obtain ⟨s₁, hv⟩ := hk.evaluate
      have hlt := hme.norm_lt_start hdesc hfirst hk
      rw [hp _ _ _ _ hv, hp _ _ _ _ hfirst, hpoint] at hlt
      exact lt_irrefl _ hlt
  summary_le v s' hfirst := by
    obtain ⟨k, b, hk⟩ := hb.exists_course_ended accepts p hpos hme.start nm c x s
    have hle := hme.antitone_residualNorm hdesc (c := c) (p := p) (x := x) (s := s) (Nat.zero_le k)
    simp only [hk, course_zero, hme.residualNorm_opening hfirst] at hle
    exact hle

end Course

end Method

end NonlinearSolve

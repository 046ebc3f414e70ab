import NonlinearSolve.Proofs.Course.Iterates
import NonlinearSolve.Proofs.ForwardDifference.Overwriting

/-! # Solves that differ in their charges

Two methods may do the same and charge a different number of evaluations for a Jacobian
(`Method.ChargesMore`). Nothing but the test of the budget looks at that number. So as long as
neither of the two solves has lost its patience, they go through the same moments, the charges apart
(`ChargesMore.course_cases`), and if both end for other reasons, they end in the same way
(`ChargesMore.run_eq`). -/

namespace NonlinearSolve

variable {σ α τ : Type} {m n : Nat}

/-! ### Charged iterates -/

/-- The iterate with `cost` evaluations more for every Jacobian. -/
def Iterate.charge (cost : Nat) (it : Iterate α m n) : Iterate α m n :=
  { it with evaluations := it.evaluations + cost * it.jacobians }

namespace Iterate

variable [Scalar α] (cost : Nat) (nm : Numerics α) (c : Settings α) (it : Iterate α m n)

omit [Scalar α] in
/-- Before the first Jacobian there is nothing to charge. -/
theorem charge_of_jacobians_eq_zero (h : it.jacobians = 0) : it.charge cost = it := by
  have hevaluations : it.evaluations + cost * it.jacobians = it.evaluations := by
    rw [h, Nat.mul_zero, Nat.add_zero]
  rw [charge, hevaluations]

omit [Scalar α] in
/-- A linearization that evaluates `cost` times charges what it costs. -/
theorem charge_linearized :
    { it.charge cost with
        evaluations := (it.charge cost).evaluations + cost
        jacobians := (it.charge cost).jacobians + 1 } =
      { it with jacobians := it.jacobians + 1 }.charge cost := by
  simp only [charge, Nat.mul_succ, Nat.add_assoc]

/-- Calibrating the scaling does not look at the counts. -/
theorem calibrate_charge (norms : Vec α n) :
    (it.charge cost).calibrate nm c norms = (it.calibrate nm c norms).charge cost := by
  rw [calibrate, calibrate]
  by_cases hfirst : it.iteration = 1
  · rw [if_pos hfirst, if_pos (show (it.charge cost).iteration = 1 from hfirst)]
    rfl
  · rw [if_neg hfirst, if_neg (show ¬(it.charge cost).iteration = 1 from hfirst)]

/-- Proposing a step does not look at the counts. -/
theorem propose_charge (step : Vec α n) :
    (it.charge cost).propose nm step =
      ((it.propose nm step).1, (it.propose nm step).2.charge cost) := by
  simp only [propose, charge, Nat.add_right_comm]
  rfl

end Iterate

/-! ### Methods -/

/-- The moment with another state. -/
def Moment.mapState (g : τ → τ) (mo : Moment σ α n τ) : Moment σ α n τ :=
  { mo with state := g mo.state }

namespace Method

/-- The method `me'` does what `me` does, in states that `charge` makes of those of `me`, as long as
the residuals are those of the function `f`. The two may disagree about the end of the budget. -/
structure ChargesMore (me me' : Method σ α m n τ) (charge : τ → τ) (accepts : Acceptance τ α m n)
    (f : Vec α n → Vec α m) : Prop where
  start (it : Iterate α m n) : it.jacobians = 0 → me'.start it = charge (me.start it)
  position (st : τ) : (me'.iterate (charge st)).position = (me.iterate st).position
  accepts (st : τ) (t : Proposal α n) (v : Vec α m) : accepts (charge st) t v = accepts st t v
  prepare (st : τ) (s : σ) : (me.iterate st).residuals = f (me.iterate st).x →
    me'.prepare (charge st) s =
      ((me.prepare st s).1, charge (me.prepare st s).2.1, (me.prepare st s).2.2)
  propose (st : τ) : me'.propose (charge st) = ((me.propose st).1, charge (me.propose st).2)
  judge (st : τ) (t : Proposal α n) (v : Vec α m) :
    me'.judge (charge st) t v = ((me.judge st t v).1, charge (me.judge st t v).2) ∨
      (me.judge st t v).1 = some .lostPatience ∨
      (me'.judge (charge st) t v).1 = some .lostPatience

namespace ChargesMore

variable {me me' : Method σ α m n τ} {charge : τ → τ} {accepts : Acceptance τ α m n}
  {f : Vec α n → Vec α m} {p : Problem σ α m n}

/-- The two methods make the same move, or one of them loses its patience. -/
theorem next_cases (h : me.ChargesMore me' charge accepts f) {mo : Moment σ α n τ}
    (hmo : (me.iterate mo.state).residuals = f (me.iterate mo.state).x) :
    me'.next accepts p (mo.mapState charge) = (me.next accepts p mo).mapState charge ∨
      (me.next accepts p mo).stage = .ended .lostPatience ∨
      (me'.next accepts p (mo.mapState charge)).stage = .ended .lostPatience := by
  obtain ⟨stage, st, s, b⟩ := mo
  cases stage with
  | ready =>
    left
    change me'.next accepts p ⟨.ready, charge st, s, b⟩ = _
    rw [next_ready, next_ready, h.prepare st s hmo]
    rfl
  | prepared =>
    left
    change me'.next accepts p ⟨.prepared, charge st, s, b⟩ = _
    rw [next_prepared, next_prepared, h.propose]
    rfl
  | proposed t =>
    change me'.next accepts p ⟨.proposed t, charge st, s, b⟩ = _ ∨ _ ∨
      (me'.next accepts p ⟨.proposed t, charge st, s, b⟩).stage = _
    rcases heval : p.evaluate t.point s with ⟨e | v, s'⟩
    · left
      rw [next_proposed_of_error heval, next_proposed_of_error heval]
      rfl
    · rw [next_proposed_of_ok heval, next_proposed_of_ok heval, h.accepts]
      obtain hsame | hlost | hlost := h.judge st t v
      · left
        rw [hsame]
        rfl
      · exact Or.inr (Or.inl (by rw [hlost]; rfl))
      · exact Or.inr (Or.inr (by rw [hlost]; rfl))
  | ended reason => exact Or.inl rfl

variable [Scalar α] {nm : Numerics α} {c : Settings α} {x : Vec α n} {s : σ}

/-- The two solves open in the same way. -/
theorem opening_eq (h : me.ChargesMore me' charge accepts f) :
    me'.opening nm c p x s = (me.opening nm c p x s).mapState charge := by
  have hjacobians : ((Iterate.start c x).evaluate nm p s).2.1.jacobians = 0 := by
    rcases heval : p.evaluate (Iterate.start (m := m) c x).x s with ⟨e | v, s'⟩ <;>
      simp only [Iterate.evaluate, heval] <;> rfl
  simp only [opening, Moment.mapState, h.start _ hjacobians]

/-- At every moment the two solves are the same, the charges apart, or one of them has lost its
patience. -/
theorem course_cases (h : me.ChargesMore me' charge accepts f) (hme : me.Steady accepts nm)
    (hp : p.Computes f) {v : Vec α m} {s₁ : σ} (hfirst : p.evaluate x s = (.ok v, s₁)) (k : Nat) :
    me'.course accepts nm c p x s k = (me.course accepts nm c p x s k).mapState charge ∨
      (me.course accepts nm c p x s k).stage = .ended .lostPatience ∨
      (me'.course accepts nm c p x s k).stage = .ended .lostPatience := by
  induction k with
  | zero => exact Or.inl h.opening_eq
  | succ k ih =>
    obtain heq | hlost | hlost := ih
    · -- the residuals are those at the iterate, so the next linearization is one of `f` there
      have hbase : me.AtBase nm f (me.course accepts nm c p x s k) :=
        course_induction (hme.atBase_opening hp hfirst) (fun _ => hme.atBase_next hp) k
      obtain ⟨hx, hresiduals, -⟩ := hbase
      rw [course_succ, course_succ, heq]
      exact h.next_cases (hresiduals.trans (congrArg f hx.symm))
    · exact Or.inr (Or.inl (by rw [course_eq_of_stage (Nat.le_succ k) hlost, hlost]))
    · exact Or.inr (Or.inr (by rw [course_eq_of_stage (Nat.le_succ k) hlost, hlost]))

/-- Solves that both keep their patience end in the same way, the charges apart. -/
theorem run_eq (h : me.ChargesMore me' charge accepts f) (hme : me.Steady accepts nm)
    (hstart : ∀ it, me'.iterate (me'.start it) = it) {budget budget' : Nat}
    (hb : me.KeepsBudget budget) (hb' : me'.KeepsBudget budget') (hpos : 0 < budget)
    (hpos' : 0 < budget') (hp : p.IsPure f)
    (hpatient : (me.run nm c budget p x s).1 ≠ .lostPatience)
    (hpatient' : (me'.run nm c budget' p x s).1 ≠ .lostPatience) :
    me'.run nm c budget' p x s =
      ((me.run nm c budget p x s).1, charge (me.run nm c budget p x s).2.1,
        (me.run nm c budget p x s).2.2) := by
  rw [Method.run_eq] at hpatient hpatient'
  -- both solves have ended in the later one of their last moments
  obtain ⟨k, b, hk⟩ := hb.exists_course_ended accepts p hpos hme.start nm c x s
  obtain ⟨l, b', hl⟩ := hb'.exists_course_ended accepts p hpos' hstart nm c x s
  have hcases := h.course_cases (c := c) hme hp.computes (hp x s) (max k l)
  rw [course_of_ended (Nat.le_max_left k l) hk, course_of_ended (Nat.le_max_right k l) hl] at hcases
  obtain heq | hlost | hlost := hcases
  · rw [Moment.mapState, Moment.mk.injEq, Stage.ended.injEq] at heq
    obtain ⟨hreason, hst, hs, -⟩ := heq
    have hposition := h.position (me.solve nm c budget p x s).2.1
    have hx := congrArg Position.x hposition
    have hresiduals := congrArg Position.residuals hposition
    have hiteration := congrArg Position.iteration hposition
    simp only [Iterate.position] at hx hresiduals hiteration
    simp only [Method.run_eq, hreason, hst, hs, hx, hresiduals, hiteration]
  · exact absurd (Stage.ended.inj hlost) hpatient
  · exact absurd (Stage.ended.inj hlost) hpatient'

end ChargesMore

end Method

end NonlinearSolve

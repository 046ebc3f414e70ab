import Mathlib.Logic.Function.Iterate
import NonlinearSolve.TrustRegion.Method

/-! # The course of a solve

`Method.solve` computes how a solve ends. Here the way there is made visible: `Method.course` lists
the moments of a solve, one after each evaluation, preparation, proposal and verdict, and keeps in
mind the point of the last step that was accepted. `Method.exists_course_ended` says that a method
that keeps to its budget (`Method.KeepsBudget`) ends in a moment of its course, so whatever holds at
every moment holds at the end. -/

namespace NonlinearSolve

/-- How far a solve has come in the current round. -/
inductive Stage (α : Type) (n : Nat) where
  /-- A round is about to begin. -/
  | ready
  /-- The round is prepared, and a step can be proposed. -/
  | prepared
  /-- A step is proposed, and the residuals at its point are to be evaluated. -/
  | proposed (t : Proposal α n)
  /-- The solve has ended. -/
  | ended (reason : Termination)

/-- The stage after a verdict. -/
def Stage.ofVerdict {α : Type} {n : Nat} : Option Termination → Stage α n
  | none => ready
  | some reason => ended reason

/-- The stage after a preparation. -/
def Stage.ofPreparation {α : Type} {n : Nat} : Option Termination → Stage α n
  | none => prepared
  | some reason => ended reason

/-- A verdict is not a proposal. -/
theorem Stage.ofVerdict_ne_proposed {α : Type} {n : Nat} (reason : Option Termination)
    (t : Proposal α n) : ofVerdict reason ≠ proposed t := by
  cases reason <;> exact fun h => by cases h

/-- A preparation is not a proposal. -/
theorem Stage.ofPreparation_ne_proposed {α : Type} {n : Nat} (reason : Option Termination)
    (t : Proposal α n) : ofPreparation reason ≠ proposed t := by
  cases reason <;> exact fun h => by cases h

/-- A verdict ends the course exactly when it carries a reason. -/
theorem Stage.ofVerdict_eq_ended_iff {α : Type} {n : Nat} {verdict : Option Termination}
    {reason : Termination} : (ofVerdict verdict : Stage α n) = ended reason ↔
      verdict = some reason := by
  cases verdict with
  | none => exact iff_of_false (fun h => by cases h) (fun h => by cases h)
  | some r => exact ⟨fun h => by cases h; rfl, fun h => by cases h; rfl⟩

/-- A preparation ends the course exactly when it carries a reason. -/
theorem Stage.ofPreparation_eq_ended_iff {α : Type} {n : Nat} {verdict : Option Termination}
    {reason : Termination} : (ofPreparation verdict : Stage α n) = ended reason ↔
      verdict = some reason := by
  cases verdict with
  | none => exact iff_of_false (fun h => by cases h) (fun h => by cases h)
  | some r => exact ⟨fun h => by cases h; rfl, fun h => by cases h; rfl⟩

/-- A moment of a solve. -/
structure Moment (σ α : Type) (n : Nat) (τ : Type) where
  /-- How far the solve has come in its round. -/
  stage : Stage α n
  /-- The state of the method. -/
  state : τ
  /-- The state of the callbacks. -/
  world : σ
  /-- The starting point, or the point of the last step that was accepted. -/
  base : Vec α n

/-- A test whether the residuals at the point of a proposal make it the next iterate. -/
abbrev Acceptance (τ α : Type) (m n : Nat) := τ → Proposal α n → Vec α m → Bool

/-- Settings without fault leave some budget: more evaluations than there are unknowns. -/
theorem Settings.lt_budget {α : Type} [Scalar α] {c : Settings α} {n : Nat}
    (hc : c.fault? n = none) {patience : Nat} (hpat : 0 < patience) :
    n < c.budget patience n := by
  have hzero : c.patience ≠ some 0 := by
    intro hzero
    simp [Settings.fault?, hzero] at hc
  rw [Settings.budget]
  cases hp : c.patience with
  | none => exact Nat.le_mul_of_pos_left (n + 1) hpat
  | some k =>
    have hk : k ≠ 0 := by
      rintro rfl
      exact hzero hp
    exact Nat.le_mul_of_pos_left (n + 1) (Nat.pos_of_ne_zero hk)

/-- Settings without a fault allow at least one evaluation. -/
theorem Settings.budget_pos {α : Type} [Scalar α] {c : Settings α} {n : Nat}
    (hc : c.fault? n = none) {patience : Nat} (hpat : 0 < patience) :
    0 < c.budget patience n :=
  Nat.zero_lt_of_lt (Settings.lt_budget hc hpat)

namespace Method

variable {σ α τ : Type} {m n : Nat}

/-- The moment that follows. A solve that has ended does not move on. -/
def next (me : Method σ α m n τ) (accepts : Acceptance τ α m n) (p : Problem σ α m n)
    (mo : Moment σ α n τ) : Moment σ α n τ :=
  match mo.stage with
  | .ready =>
    match me.prepare mo.state mo.world with
    | (some reason, st, s) => { mo with stage := .ended reason, state := st, world := s }
    | (none, st, s) => { mo with stage := .prepared, state := st, world := s }
  | .prepared =>
    let (t, st) := me.propose mo.state
    { mo with stage := .proposed t, state := st }
  | .proposed t =>
    match p.evaluate t.point mo.world with
    | (.error e, s) => { mo with stage := .ended (.user e), world := s }
    | (.ok f, s) =>
      let (reason, st) := me.judge mo.state t f
      { stage := .ofVerdict reason
        state := st
        world := s
        base := if accepts mo.state t f then t.point else mo.base }
  | .ended _ => mo

/-- The first moment of a solve, right after the first evaluation. -/
def opening [Scalar α] (me : Method σ α m n τ) (nm : Numerics α) (c : Settings α)
    (p : Problem σ α m n) (x : Vec α n) (s : σ) : Moment σ α n τ :=
  let (reason, it, s) := (Iterate.start c x).evaluate nm p s
  { stage := .ofVerdict reason, state := me.start it, world := s, base := x }

/-- The moments of a solve from `x` on. -/
def course [Scalar α] (me : Method σ α m n τ) (accepts : Acceptance τ α m n) (nm : Numerics α)
    (c : Settings α) (p : Problem σ α m n) (x : Vec α n) (s : σ) (k : Nat) : Moment σ α n τ :=
  (me.next accepts p)^[k] (me.opening nm c p x s)

variable {me : Method σ α m n τ} {accepts : Acceptance τ α m n} {p : Problem σ α m n}

/-! ### The four kinds of moves -/

/-- The move from a ready moment is the preparation. -/
theorem next_ready (st : τ) (s : σ) (b : Vec α n) :
    me.next accepts p ⟨.ready, st, s, b⟩ =
      { stage := .ofPreparation (me.prepare st s).1
        state := (me.prepare st s).2.1
        world := (me.prepare st s).2.2
        base := b } := by
  rcases h : me.prepare st s with ⟨_ | reason, st', s'⟩ <;> simp only [next, h, Stage.ofPreparation]

/-- The move from a prepared moment proposes a step. -/
theorem next_prepared (st : τ) (s : σ) (b : Vec α n) :
    me.next accepts p ⟨.prepared, st, s, b⟩ =
      ⟨.proposed (me.propose st).1, (me.propose st).2, s, b⟩ := rfl

/-- An evaluation that aborts ends the course with that abort. -/
theorem next_proposed_of_error {t : Proposal α n} {st : τ} {s s' : σ} {b : Vec α n} {e : Abort}
    (h : p.evaluate t.point s = (.error e, s')) :
    me.next accepts p ⟨.proposed t, st, s, b⟩ = ⟨.ended (.user e), st, s', b⟩ := by
  simp only [next, h]

/-- An evaluation that answers has the step judged. -/
theorem next_proposed_of_ok {t : Proposal α n} {st : τ} {s s' : σ} {b : Vec α n} {f : Vec α m}
    (h : p.evaluate t.point s = (.ok f, s')) :
    me.next accepts p ⟨.proposed t, st, s, b⟩ =
      { stage := .ofVerdict (me.judge st t f).1
        state := (me.judge st t f).2
        world := s'
        base := if accepts st t f then t.point else b } := by
  simp only [next, h]

/-- A course that has ended stays where it is. -/
@[simp] theorem next_ended (reason : Termination) (st : τ) (s : σ) (b : Vec α n) :
    me.next accepts p ⟨.ended reason, st, s, b⟩ = ⟨.ended reason, st, s, b⟩ := rfl

/-- The move from a moment known to be ready. -/
theorem next_of_ready {mo : Moment σ α n τ} (hstage : mo.stage = .ready) :
    me.next accepts p mo =
      { stage := .ofPreparation (me.prepare mo.state mo.world).1
        state := (me.prepare mo.state mo.world).2.1
        world := (me.prepare mo.state mo.world).2.2
        base := mo.base } := by
  obtain ⟨stage, st, s, b⟩ := mo
  obtain rfl : stage = .ready := hstage
  exact next_ready st s b

/-- The move from a moment known to be prepared. -/
theorem next_of_prepared {mo : Moment σ α n τ} (hstage : mo.stage = .prepared) :
    me.next accepts p mo =
      ⟨.proposed (me.propose mo.state).1, (me.propose mo.state).2, mo.world, mo.base⟩ := by
  obtain ⟨stage, st, s, b⟩ := mo
  obtain rfl : stage = .prepared := hstage
  exact next_prepared st s b

section Course

variable [Scalar α] {nm : Numerics α} {c : Settings α} {x : Vec α n} {s : σ}

/-- The course begins with the opening moment. -/
@[simp] theorem course_zero :
    me.course accepts nm c p x s 0 = me.opening nm c p x s := rfl

/-- One more move. -/
theorem course_succ (k : Nat) :
    me.course accepts nm c p x s (k + 1) =
      me.next accepts p (me.course accepts nm c p x s k) :=
  Function.iterate_succ_apply' _ _ _

/-- What holds at the opening and is kept by every move holds at every moment. -/
theorem course_induction {motive : Moment σ α n τ → Prop}
    (opening : motive (me.opening nm c p x s))
    (next : ∀ mo, motive mo → motive (me.next accepts p mo)) (k : Nat) :
    motive (me.course accepts nm c p x s k) := by
  induction k with
  | zero => exact opening
  | succ k ih =>
    rw [course_succ]
    exact next _ ih

/-- A solve that has ended stays where it is. -/
theorem course_of_ended {k l : Nat} (hkl : k ≤ l) {reason : Termination} {st : τ} {s' : σ}
    {b : Vec α n} (hk : me.course accepts nm c p x s k = ⟨.ended reason, st, s', b⟩) :
    me.course accepts nm c p x s l = ⟨.ended reason, st, s', b⟩ := by
  induction hkl with
  | refl => exact hk
  | step _ ih => rw [course_succ, ih, next_ended]

/-- After the end there are no other moments. -/
theorem course_eq_of_stage {k l : Nat} (hkl : k ≤ l) {reason : Termination}
    (hk : (me.course accepts nm c p x s k).stage = .ended reason) :
    me.course accepts nm c p x s l = me.course accepts nm c p x s k := by
  generalize hmo : me.course accepts nm c p x s k = mo at hk
  obtain ⟨stage, st, s', b⟩ := mo
  obtain rfl : stage = .ended reason := hk
  exact course_of_ended hkl hmo

/-- A solve that goes on after its opening has evaluated the residuals at the starting point. -/
theorem exists_evaluate_of_course {j : Nat}
    (hj : ∀ r, (me.course accepts nm c p x s j).stage ≠ .ended r) :
    ∃ v s', p.evaluate x s = (.ok v, s') := by
  rcases heval : p.evaluate (Iterate.start (m := m) c x).x s with ⟨e | v, s'⟩
  · have hopen : (me.course accepts nm c p x s 0).stage = .ended (.user e) := by
      simp only [course_zero, opening, Iterate.evaluate, heval, Stage.ofVerdict]
    refine absurd ?_ (hj (.user e))
    rw [course_eq_of_stage (Nat.zero_le j) hopen]
    exact hopen
  · exact ⟨v, s', heval⟩

/-- If a solve ends that has not ended at the moment `j`, then some move from there on ends it. -/
theorem exists_last_move {j l : Nat} {reason : Termination}
    (hj : ∀ r, (me.course accepts nm c p x s j).stage ≠ .ended r)
    (hl : (me.course accepts nm c p x s l).stage = .ended reason) :
    ∃ k, j ≤ k ∧ (∀ r, (me.course accepts nm c p x s k).stage ≠ .ended r) ∧
      (me.course accepts nm c p x s (k + 1)).stage = .ended reason := by
  have hjl : j < l := by
    by_contra hle
    refine hj reason ?_
    rw [course_eq_of_stage (Nat.not_lt.1 hle) hl]
    exact hl
  induction l with
  | zero => exact absurd hjl (Nat.not_lt_zero j)
  | succ l ih =>
    by_cases hgoes : ∀ r, (me.course accepts nm c p x s l).stage ≠ .ended r
    · exact ⟨l, Nat.lt_succ_iff.1 hjl, hgoes, hl⟩
    · -- the solve has ended before, and in the same way
      simp only [not_forall, not_not] at hgoes
      obtain ⟨r, hr⟩ := hgoes
      have hbefore : (me.course accepts nm c p x s l).stage = .ended reason := by
        rw [← course_eq_of_stage (Nat.le_succ l) hr]
        exact hl
      obtain hlt | rfl := Nat.lt_succ_iff_lt_or_eq.1 hjl
      · exact ih hbefore hlt
      · exact absurd hr (hj r)

end Course

/-! ### The end of a solve -/

variable (me accepts p) in
/-- One round of the solve is a number of moves. -/
theorem exists_iterate_next_round (st : τ) (s : σ) (b : Vec α n) :
    ∃ d b', (me.next accepts p)^[d] ⟨.ready, st, s, b⟩ =
      ⟨.ofVerdict (me.round p (st, s)).1, (me.round p (st, s)).2.1, (me.round p (st, s)).2.2,
        b'⟩ := by
  rcases hprep : me.prepare st s with ⟨_ | reason, st₁, s₁⟩
  · -- a round that is prepared takes three moves: preparation, proposal and verdict
    have h₁ : me.next accepts p ⟨.ready, st, s, b⟩ = ⟨.prepared, st₁, s₁, b⟩ := by
      rw [next_ready, hprep]
      rfl
    have h₂ : me.next accepts p ⟨.prepared, st₁, s₁, b⟩ =
        ⟨.proposed (me.propose st₁).1, (me.propose st₁).2, s₁, b⟩ := next_prepared _ _ _
    have hround : me.round p (st, s) = me.attempt p st₁ s₁ := by
      simp only [round, hprep]
    rcases heval : p.evaluate (me.propose st₁).1.point s₁ with ⟨e | f, s₂⟩
    · refine ⟨3, b, ?_⟩
      rw [Function.iterate_succ_apply, Function.iterate_succ_apply, Function.iterate_one, h₁, h₂,
        next_proposed_of_error heval, hround]
      simp only [attempt, heval, Stage.ofVerdict]
    · refine ⟨3, if accepts (me.propose st₁).2 (me.propose st₁).1 f then
        (me.propose st₁).1.point else b, ?_⟩
      rw [Function.iterate_succ_apply, Function.iterate_succ_apply, Function.iterate_one, h₁, h₂,
        next_proposed_of_ok heval, hround]
      simp only [attempt, heval]
  · -- a preparation that ends the solve is the only move of its round
    refine ⟨1, b, ?_⟩
    rw [Function.iterate_one, next_ready, hprep]
    simp only [round, hprep, Stage.ofVerdict, Stage.ofPreparation]

/-- A method keeps to a budget of evaluations if every proposal counts as one, no count is taken
back, and a verdict that lets the solve go on finds the budget not yet used up. -/
structure KeepsBudget (me : Method σ α m n τ) (budget : Nat) : Prop where
  prepare (st : τ) (s : σ) :
    (me.iterate st).evaluations ≤ (me.iterate (me.prepare st s).2.1).evaluations
  propose (st : τ) :
    (me.iterate (me.propose st).2).evaluations = (me.iterate st).evaluations + 1
  judge (st : τ) (t : Proposal α n) (f : Vec α m) :
    (me.iterate (me.judge st t f).2).evaluations = (me.iterate st).evaluations
  goOn (st : τ) (t : Proposal α n) (f : Vec α m) :
    (me.judge st t f).1 = none → (me.iterate st).evaluations < budget

/-- A round that lets the solve go on has counted an evaluation within the budget. -/
theorem KeepsBudget.round {budget : Nat} (hb : me.KeepsBudget budget) {st st' : τ} {s s' : σ}
    (h : me.round p (st, s) = (none, st', s')) :
    (me.iterate st).evaluations < (me.iterate st').evaluations ∧
      (me.iterate st').evaluations < budget := by
  rcases hprep : me.prepare st s with ⟨_ | reason, st₁, s₁⟩
  · simp only [Method.round, hprep, attempt] at h
    rcases heval : p.evaluate (me.propose st₁).1.point s₁ with ⟨e | f, s₂⟩
    · simp only [heval, Prod.mk.injEq, reduceCtorEq, false_and] at h
    · simp only [heval, Prod.mk.injEq] at h
      obtain ⟨hnone, hst, -⟩ := h
      have hjudge : st' = (me.judge (me.propose st₁).2 (me.propose st₁).1 f).2 := hst.symm
      rw [hjudge]
      -- only the proposal counts, and the verdict compares the count after it with the budget
      have h₁ : (me.iterate st).evaluations ≤ (me.iterate st₁).evaluations := by
        simpa only [hprep] using hb.prepare st s
      have h₂ := hb.propose st₁
      have h₃ := hb.judge (me.propose st₁).2 (me.propose st₁).1 f
      have h₄ := hb.goOn (me.propose st₁).2 (me.propose st₁).1 f hnone
      omega
  · simp only [Method.round, hprep, Prod.mk.injEq, reduceCtorEq, false_and] at h

variable (accepts p) in
/-- A method that keeps to its budget has ended before the rounds are used up. -/
theorem KeepsBudget.exists_iterate_next_repeatRound {budget : Nat} (hb : me.KeepsBudget budget)
    (k : Nat) (st : τ) (s : σ) (b : Vec α n) (hk : 0 < k)
    (hle : budget ≤ (me.iterate st).evaluations + k) :
    ∃ d b', (me.next accepts p)^[d] ⟨.ready, st, s, b⟩ =
      ⟨.ended (repeatRound (me.round p) k (st, s)).1, (repeatRound (me.round p) k (st, s)).2.1,
        (repeatRound (me.round p) k (st, s)).2.2, b'⟩ := by
  induction k generalizing st s b with
  | zero => omega
  | succ k ih =>
    -- a round that lets the solve go on has used up one evaluation, so the rounds left suffice
    obtain ⟨d, b', hd⟩ := exists_iterate_next_round me accepts p st s b
    rcases hround : me.round p (st, s) with ⟨_ | reason, st', s'⟩
    · rw [hround] at hd
      have hcount := hb.round hround
      obtain ⟨d', b'', hd'⟩ := ih st' s' b' (by omega) (by omega)
      refine ⟨d' + d, b'', ?_⟩
      rw [Function.iterate_add_apply, hd]
      simp only [repeatRound, hround]
      exact hd'
    · rw [hround] at hd
      refine ⟨d, b', ?_⟩
      simp only [repeatRound, hround]
      exact hd

variable [Scalar α]

/-- The first evaluation is the first one that counts. -/
theorem evaluations_evaluate (nm : Numerics α) (p : Problem σ α m n) (it : Iterate α m n)
    (s : σ) : (it.evaluate nm p s).2.1.evaluations = 1 := by
  rcases h : p.evaluate it.x s with ⟨e | f, s'⟩ <;> simp only [Iterate.evaluate, h]

variable (accepts p) in
/-- A solve ends in a moment of its course. -/
theorem KeepsBudget.exists_course_ended {budget : Nat} (hb : me.KeepsBudget budget)
    (hpos : 0 < budget) (hstart : ∀ it, me.iterate (me.start it) = it) (nm : Numerics α)
    (c : Settings α) (x : Vec α n) (s : σ) :
    ∃ k b, me.course accepts nm c p x s k =
      ⟨.ended (me.solve nm c budget p x s).1, (me.solve nm c budget p x s).2.1,
        (me.solve nm c budget p x s).2.2, b⟩ := by
  rcases heval : (Iterate.start c x).evaluate nm p s with ⟨_ | reason, it, s'⟩
  · -- the first evaluation has been counted, so there are more rounds than evaluations left
    have hone : it.evaluations = 1 := by
      simpa only [heval] using evaluations_evaluate nm p (Iterate.start c x) s
    have hle : budget ≤ (me.iterate (me.start it)).evaluations + budget := by
      rw [hstart, hone]
      omega
    obtain ⟨d, b, hd⟩ := hb.exists_iterate_next_repeatRound accepts p budget (me.start it) s' x hpos
      hle
    refine ⟨d, b, ?_⟩
    simp only [course, opening, solve, heval, Stage.ofVerdict]
    exact hd
  · refine ⟨0, x, ?_⟩
    simp only [course_zero, opening, solve, heval, Stage.ofVerdict]

/-- Wherever the course of a solve has ended, there the solve ends. -/
theorem KeepsBudget.solve_of_course_ended {budget : Nat} (hb : me.KeepsBudget budget)
    (hpos : 0 < budget) (hstart : ∀ it, me.iterate (me.start it) = it) {nm : Numerics α}
    {c : Settings α} {x : Vec α n} {s : σ} {k : Nat} {reason : Termination} {st : τ} {s' : σ}
    {b : Vec α n} (hk : me.course accepts nm c p x s k = ⟨.ended reason, st, s', b⟩) :
    me.solve nm c budget p x s = (reason, st, s') := by
  obtain ⟨l, b', hl⟩ := hb.exists_course_ended accepts p hpos hstart nm c x s
  -- both moments are the one in which the course rests
  have hrest := course_of_ended (Nat.le_max_left k l) hk
  rw [course_of_ended (Nat.le_max_right k l) hl, Moment.mk.injEq, Stage.ended.injEq] at hrest
  obtain ⟨hreason, hst, hs, -⟩ := hrest
  rw [← hreason, ← hst, ← hs]

/-- The last report comes after the solve has ended. -/
theorem run_eq (me : Method σ α m n τ) (nm : Numerics α) (c : Settings α) (budget : Nat)
    (p : Problem σ α m n) (x : Vec α n) (s : σ) :
    me.run nm c budget p x s =
      ((me.solve nm c budget p x s).1, (me.solve nm c budget p x s).2.1,
        if 0 < c.reportEvery then
          (p.report (me.iterate (me.solve nm c budget p x s).2.1).iteration
            (me.iterate (me.solve nm c budget p x s).2.1).x
            (me.iterate (me.solve nm c budget p x s).2.1).residuals
            (me.solve nm c budget p x s).2.2).2
        else (me.solve nm c budget p x s).2.2) := by
  rcases hsolve : me.solve nm c budget p x s with ⟨reason, st, s'⟩
  simp only [run, hsolve]
  split <;> rfl

end Method

end NonlinearSolve

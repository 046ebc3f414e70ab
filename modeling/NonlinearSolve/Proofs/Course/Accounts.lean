import Mathlib.Data.Nat.Count
import NonlinearSolve.Proofs.Course.Aborts

/-! # The accounts of a solve

A solve of a traced problem leaves all its calls in the trace, so the counts that it keeps itself
can be compared with what was really called. A method is metered (`Method.Metered`) if its
preparations add the evaluations of a completed linearization to the count, no matter how many, and
those of an aborted one not at all, and count the linearization once all that it asks of the
Jacobian has been answered. The accounts of a solve by such a method are in order (`Accounts`,
`Method.Metered.accounts`): it ends, after no more evaluations than the budget admits and a bounded
number of calls, and it reports how many evaluations and linearizations there were. -/

namespace NonlinearSolve

variable {σ α τ : Type} {m n : Nat}

/-! ### Calls of a kind in a list of calls -/

/-- Whether a call asks for the residuals. -/
def Call.isEvaluation : Call α m n → Bool
  | evaluate _ => true
  | _ => false

/-- The number of evaluations of the residuals in a list of calls. -/
def evaluationCalls (calls : Array (Event α m n)) : Nat :=
  calls.countP fun e => e.call.isEvaluation

/-- A trace without calls has no evaluations. -/
@[simp] theorem evaluationCalls_empty : evaluationCalls (#[] : Array (Event α m n)) = 0 := rfl

/-- The evaluations of two traces add up. -/
@[simp] theorem evaluationCalls_append (calls calls' : Array (Event α m n)) :
    evaluationCalls (calls ++ calls') = evaluationCalls calls + evaluationCalls calls' :=
  Array.countP_append

/-- One call counts when it is an evaluation, also when it aborts. -/
@[simp] theorem evaluationCalls_single (call : Call α m n) (a : Option Abort) :
    evaluationCalls #[⟨call, a⟩] = if call.isEvaluation then 1 else 0 := by
  cases hcall : call.isEvaluation <;> simp [evaluationCalls, hcall]

/-- Whether a call asks for the Jacobian or for a row of it. -/
def Call.isJacobian : Call α m n → Bool
  | jacobian _ | jacobianRow _ _ => true
  | _ => false

/-- The number of Jacobians and of rows of Jacobians that are given in a list of calls. A call that
aborts gives none. -/
def jacobianAnswers (calls : Array (Event α m n)) : Nat :=
  calls.countP fun e => e.call.isJacobian && e.abort.isNone

/-- A trace without calls has no answered requests for the Jacobian. -/
@[simp] theorem jacobianAnswers_empty : jacobianAnswers (#[] : Array (Event α m n)) = 0 := rfl

/-- The answered requests of two traces add up. -/
@[simp] theorem jacobianAnswers_append (calls calls' : Array (Event α m n)) :
    jacobianAnswers (calls ++ calls') = jacobianAnswers calls + jacobianAnswers calls' :=
  Array.countP_append

/-- One call counts when it asks for the Jacobian, or a row of it, and does not abort. -/
@[simp] theorem jacobianAnswers_single (call : Call α m n) (a : Option Abort) :
    jacobianAnswers #[⟨call, a⟩] = if (call.isJacobian && a.isNone) = true then 1 else 0 := by
  cases hcall : call.isJacobian && a.isNone <;> simp [jacobianAnswers, hcall]

/-- Where all calls are evaluations, no Jacobian is given. -/
theorem jacobianAnswers_of_evaluations {calls : Array (Event α m n)}
    (h : evaluationCalls calls = calls.size) : jacobianAnswers calls = 0 := by
  refine Array.countP_eq_zero.2 ?_
  rintro ⟨call, a⟩ hmem
  have hcall : call.isEvaluation = true := Array.countP_eq_size.1 h _ hmem
  cases call with
  | evaluate x => exact Bool.false_ne_true
  | jacobian x | jacobianRow x i | report k x f => cases hcall

/-- An evaluation is one call. -/
theorem Problem.traced_evaluate (p : Problem σ α m n) (x : Vec α n) (s : σ)
    (tr : Array (Event α m n)) :
    ∃ new : Array (Event α m n), new.size = 1 ∧ evaluationCalls new = 1 ∧ jacobianAnswers new = 0 ∧
      p.traced.evaluate x (s, tr) = ((p.evaluate x s).1, (p.evaluate x s).2, tr ++ new) :=
  ⟨_, rfl, evaluationCalls_single _ _, jacobianAnswers_single _ _,
    Callback.traced_apply (.evaluate x) (p.evaluate x) s tr⟩

/-- A report that may be due is at most one call, which is no evaluation and asks for no
Jacobian. -/
theorem Problem.traced_reportIfDue (p : Problem σ α m n) (c : Settings α)
    (it : Iterate α m n) (s : σ) (tr : Array (Event α m n)) :
    ∃ new : Array (Event α m n), new.size ≤ 1 ∧ evaluationCalls new = 0 ∧ jacobianAnswers new = 0 ∧
      it.reportIfDue c p.traced (s, tr) =
        ((it.reportIfDue c p s).1, (it.reportIfDue c p s).2, tr ++ new) := by
  unfold Iterate.reportIfDue
  split
  · exact ⟨_, le_rfl, evaluationCalls_single _ _, jacobianAnswers_single _ _,
      Callback.traced_apply _ _ s tr⟩
  · exact ⟨#[], Nat.zero_le _, rfl, rfl, Prod.ext rfl (Prod.ext rfl Array.append_empty.symm)⟩

/-! ### Linearizations -/

deriving instance DecidableEq for Abort

/-- What becomes of the linearization in a move. -/
inductive Attempt where
  /-- The move does not linearize. -/
  | omitted
  /-- The linearization is completed. -/
  | completed
  /-- A call of the linearization aborts. -/
  | aborted (a : Abort)
  deriving DecidableEq

namespace Attempt

/-- An attempt with the given result. -/
def ofResult {β : Type} : Except Abort β → Attempt
  | .ok _ => completed
  | .error a => aborted a

/-- Whether a linearization is completed. -/
def isCompleted : Attempt → Bool
  | completed => true
  | _ => false

end Attempt

/-- How an attempt to linearize is billed that makes the calls `new` and takes the iterate from `it`
to `it'`: the evaluations, at most `extra`, are counted if it is completed and not otherwise, and so
is the linearization. It is completed when it has had all its `answers` about the Jacobian, and
aborted before. -/
inductive Billed (extra answers : Nat) (new : Array (Event α m n)) (it it' : Iterate α m n) :
    Attempt → Prop where
  | omitted : evaluationCalls new = 0 → jacobianAnswers new = 0 →
      it'.evaluations = it.evaluations → it'.jacobians = it.jacobians →
      Billed extra answers new it it' .omitted
  | completed : evaluationCalls new ≤ extra → jacobianAnswers new = answers →
      it'.evaluations = it.evaluations + evaluationCalls new → it'.jacobians = it.jacobians + 1 →
      Billed extra answers new it it' .completed
  | aborted (a : Abort) : evaluationCalls new ≤ extra → jacobianAnswers new ≤ answers - 1 →
      it'.evaluations = it.evaluations → it'.jacobians = it.jacobians →
      Billed extra answers new it it' (.aborted a)

namespace Billed

variable {extra answers : Nat} {new : Array (Event α m n)} {it it' : Iterate α m n}
  {attempt : Attempt}

/-- A bill depends on the counts only. -/
theorem congr (h : Billed extra answers new it it' attempt) {new' : Array (Event α m n)}
    {it'' : Iterate α m n} (hcalls : evaluationCalls new' = evaluationCalls new)
    (hanswers : jacobianAnswers new' = jacobianAnswers new)
    (heval : it''.evaluations = it'.evaluations) (hjac : it''.jacobians = it'.jacobians) :
    Billed extra answers new' it it'' attempt := by
  cases h with
  | omitted hnone hzero hsame hkept =>
    exact .omitted (hcalls.trans hnone) (hanswers.trans hzero) (heval.trans hsame)
      (hjac.trans hkept)
  | completed hle hall hmore hnext =>
    exact .completed (hcalls.trans_le hle) (hanswers.trans hall) (by rw [heval, hmore, hcalls])
      (hjac.trans hnext)
  | aborted a hle hless hsame hkept =>
    exact .aborted a (hcalls.trans_le hle) (hanswers.trans_le hless) (heval.trans hsame)
      (hjac.trans hkept)

/-- A report before a linearization does not change its bill. -/
theorem report_before (h : Billed extra answers new it it' attempt) {first : Array (Event α m n)}
    (hcalls : evaluationCalls first = 0) (hnone : jacobianAnswers first = 0) :
    Billed extra answers (first ++ new) it it' attempt := by
  refine h.congr ?_ ?_ rfl rfl
  · rw [evaluationCalls_append, hcalls, Nat.zero_add]
  · rw [jacobianAnswers_append, hnone, Nat.zero_add]

/-- A report after a linearization does not change its bill. -/
theorem report_after (h : Billed extra answers new it it' attempt) {last : Array (Event α m n)}
    (hcalls : evaluationCalls last = 0) (hnone : jacobianAnswers last = 0) :
    Billed extra answers (new ++ last) it it' attempt := by
  refine h.congr ?_ ?_ rfl rfl
  · rw [evaluationCalls_append, hcalls, Nat.add_zero]
  · rw [jacobianAnswers_append, hnone, Nat.add_zero]

/-- A linearization is counted if it is completed. -/
theorem jacobians_eq (h : Billed extra answers new it it' attempt) :
    it'.jacobians = it.jacobians + if attempt.isCompleted = true then 1 else 0 := by
  cases h with
  | omitted _ _ _ hjac => exact hjac
  | completed _ _ _ hjac => exact hjac
  | aborted _ _ _ _ hjac => exact hjac

/-- Unless a linearization is aborted, its evaluations are counted. -/
theorem evaluations_eq (h : Billed extra answers new it it' attempt)
    (hok : ∀ a, attempt ≠ .aborted a) :
    it'.evaluations = it.evaluations + evaluationCalls new := by
  cases h with
  | omitted hzero _ heval _ => rw [hzero, heval, Nat.add_zero]
  | completed _ _ heval _ => exact heval
  | aborted a _ _ _ _ => exact absurd rfl (hok a)

/-- Unless a linearization is aborted, its answers are those of the linearizations counted. -/
theorem answers_eq (h : Billed extra answers new it it' attempt)
    (hok : ∀ a, attempt ≠ .aborted a) :
    answers * it.jacobians + jacobianAnswers new = answers * it'.jacobians := by
  cases h with
  | omitted _ hzero _ hjac => rw [hzero, hjac, Nat.add_zero]
  | completed _ hall _ hjac => rw [hall, hjac, Nat.mul_succ]
  | aborted a _ _ _ _ => exact absurd rfl (hok a)

/-- A linearization adds no more than its `extra` evaluations to the count. -/
theorem evaluations_le (h : Billed extra answers new it it' attempt) :
    it'.evaluations ≤ it.evaluations + extra := by
  cases h <;> omega

/-- What a linearization has called before it is aborted is not counted. -/
theorem of_aborted {a : Abort} (h : Billed extra answers new it it' (.aborted a)) :
    evaluationCalls new ≤ extra ∧ jacobianAnswers new ≤ answers - 1 ∧
      it'.evaluations = it.evaluations ∧ it'.jacobians = it.jacobians := by
  cases h with
  | aborted _ hcalls hless heval hjac => exact ⟨hcalls, hless, heval, hjac⟩

end Billed

/-- The attempt to linearize in the move that follows. Only a round that begins can make one. -/
def Moment.attempt (attempt : τ → σ → Attempt) (mo : Moment σ α n τ) : Attempt :=
  match mo.stage with
  | .ready => attempt mo.state mo.world
  | _ => .omitted

/-! ### Accounts -/

/-- The accounts of a solve with the moments `course` and the calls `trace`, of which `sm` is the
summary. A linearization makes at most `extra` evaluations and asks `answers` times for the Jacobian
or a row of it. -/
structure Accounts (course : Nat → Moment (Traced σ α m n) α n τ)
    (attempt : Moment (Traced σ α m n) α n τ → Attempt) (budget extra answers : Nat)
    (sm : Summary α m n) (trace : Array (Event α m n)) : Prop where
  /-- The solve ends, and the completed linearizations have been counted. -/
  ends : ∃ k₀, ∀ k, k₀ ≤ k → (course k).stage = .ended sm.termination ∧
    sm.jacobians = Nat.count (fun i => (attempt (course i)).isCompleted = true) k
  /-- The number of calls is bounded. -/
  size_le : trace.size ≤ (sm.evaluations + 1) * (extra + answers + 2)
  /-- The evaluations are within the budget, but for those of the last linearization. -/
  evaluations_le : sm.evaluations ≤ budget + extra
  /-- Every evaluation is counted unless a linearization aborts. -/
  evaluations_eq : (∀ k a, attempt (course k) ≠ .aborted a) →
    evaluationCalls trace = sm.evaluations
  /-- The linearizations counted are those whose answers are in the trace, all of them unless a
  linearization aborts. -/
  answers_eq : (∀ k a, attempt (course k) ≠ .aborted a) →
    jacobianAnswers trace = answers * sm.jacobians
  /-- A linearization that aborts ends the solve. Its evaluations are the last ones, and are those
  that are not counted. -/
  evaluations_of_aborted (k : Nat) (a : Abort) : attempt (course k) = .aborted a →
    sm.termination = .user a ∧ evaluationCalls (course k).world.2 = sm.evaluations ∧
      evaluationCalls (course (k + 1)).world.2 = evaluationCalls trace ∧
      sm.evaluations ≤ evaluationCalls trace ∧ evaluationCalls trace ≤ sm.evaluations + extra
  /-- A linearization that aborts is not counted and has not had all its answers, which are the last
  ones. -/
  answers_of_aborted (k : Nat) (a : Abort) : attempt (course k) = .aborted a →
    jacobianAnswers (course k).world.2 = answers * sm.jacobians ∧
      jacobianAnswers (course (k + 1)).world.2 = jacobianAnswers trace ∧
      answers * sm.jacobians ≤ jacobianAnswers trace ∧
      jacobianAnswers trace ≤ answers * sm.jacobians + (answers - 1)

/-- The accounts of a solve whose input is rejected. -/
theorem Accounts.of_rejected {mo : Moment (Traced σ α m n) α n τ} {reason : Termination}
    (hstage : mo.stage = .ended reason)
    {attempt : Moment (Traced σ α m n) α n τ → Attempt} (hattempt : attempt mo = .omitted)
    (budget extra answers : Nat) {sm : Summary α m n} (hsm : sm.termination = reason)
    (hjac : sm.jacobians = 0) (heval : sm.evaluations = 0) :
    Accounts (fun _ => mo) attempt budget extra answers sm #[] where
  ends := by
    refine ⟨0, fun k _ => ⟨hsm ▸ hstage, ?_⟩⟩
    simp [hjac, hattempt, Attempt.isCompleted, Nat.count_false]
  size_le := Nat.zero_le _
  evaluations_le := heval ▸ Nat.zero_le _
  evaluations_eq _ := heval.symm
  answers_eq _ := by rw [hjac, Nat.mul_zero, jacobianAnswers_empty]
  evaluations_of_aborted k a h := by
    rw [hattempt] at h
    cases h
  answers_of_aborted k a h := by
    rw [hattempt] at h
    cases h

namespace Stage

/-- The evaluations that are counted already and have yet to be made. -/
def pending : Stage α n → Nat
  | proposed _ => 1
  | _ => 0

/-- The evaluations that may have to be made until the budget is looked at, if a linearization makes
`extra`. -/
def reserve (extra : Nat) : Stage α n → Nat
  | ready => extra + 1
  | prepared => 1
  | _ => 0

/-- The calls that a round may have made before its evaluation, if a linearization makes `calls`. -/
def credit (calls : Nat) : Stage α n → Nat
  | prepared | ended _ => calls + 1
  | _ => 0

end Stage

namespace Method

/-- A method for a traced problem that bills its linearizations. The preparation of a round makes
the calls of a linearization and at most one other, which is no evaluation. -/
structure Metered (me : Method (Traced σ α m n) α m n τ) (attempt : τ → Traced σ α m n → Attempt)
    (extra answers : Nat) : Prop where
  propose (st : τ) : (me.iterate (me.propose st).2).jacobians = (me.iterate st).jacobians
  judge (st : τ) (t : Proposal α n) (f : Vec α m) :
    (me.iterate (me.judge st t f).2).jacobians = (me.iterate st).jacobians
  prepare (st : τ) (s : σ) (tr : Array (Event α m n)) :
    ∃ new : Array (Event α m n), (me.prepare st (s, tr)).2.2.2 = tr ++ new ∧
      new.size ≤ extra + answers + 1 ∧
      Billed extra answers new (me.iterate st) (me.iterate (me.prepare st (s, tr)).2.1)
        (attempt st (s, tr))
  aborted (st : τ) (s : Traced σ α m n) (a : Abort) :
    attempt st s = .aborted a → (me.prepare st s).1 = some (.user a)

/-- The counts agree with the calls, if a linearization asks `answers` times for the Jacobian or a
row of it. -/
structure Balanced (me : Method (Traced σ α m n) α m n τ) (answers : Nat)
    (mo : Moment (Traced σ α m n) α n τ) : Prop where
  /-- Every evaluation that was made or is to be made next has been counted. -/
  evaluations : evaluationCalls mo.world.2 + mo.stage.pending = (me.iterate mo.state).evaluations
  /-- Every linearization that has had its answers has been counted. -/
  answers : jacobianAnswers mo.world.2 = answers * (me.iterate mo.state).jacobians

/-- The counts are within their bounds, if a linearization makes at most `calls` calls, at most
`extra` of them evaluations. -/
structure Within (me : Method (Traced σ α m n) α m n τ) (budget extra calls : Nat)
    (mo : Moment (Traced σ α m n) α n τ) : Prop where
  evaluations_le :
    (me.iterate mo.state).evaluations + mo.stage.reserve extra ≤ budget + extra
  size_le : mo.world.2.size + mo.stage.pending ≤
    (me.iterate mo.state).evaluations * (calls + 2) + mo.stage.credit calls

section Moves

variable {me : Method (Traced σ α m n) α m n τ} {attempt : τ → Traced σ α m n → Attempt}
  {extra answers budget : Nat} {accepts : Acceptance τ α m n} {p : Problem σ α m n}

/-- A move counts the linearization that it completes, if there is one. -/
theorem Metered.jacobians_next (hme : me.Metered attempt extra answers)
    (mo : Moment (Traced σ α m n) α n τ) :
    (me.iterate (me.next accepts p.traced mo).state).jacobians =
      (me.iterate mo.state).jacobians +
        if (mo.attempt attempt).isCompleted = true then 1 else 0 := by
  obtain ⟨stage, st, ⟨s, tr⟩, b⟩ := mo
  cases stage with
  | ready =>
    obtain ⟨new, -, -, hbill⟩ := hme.prepare st s tr
    rw [next_ready]
    exact hbill.jacobians_eq
  | prepared => exact hme.propose st
  | proposed t =>
    rcases heval : p.traced.evaluate t.point (s, tr) with ⟨e | f, s'⟩
    · rw [next_proposed_of_error heval]
      rfl
    · rw [next_proposed_of_ok heval]
      exact hme.judge st t f
  | ended reason => rfl

/-- A move keeps the balance unless it is a linearization that aborts. -/
theorem Metered.balanced_next (hme : me.Metered attempt extra answers) (hb : me.KeepsBudget budget)
    {mo : Moment (Traced σ α m n) α n τ} (hok : ∀ a, mo.attempt attempt ≠ .aborted a)
    (h : me.Balanced answers mo) : me.Balanced answers (me.next accepts p.traced mo) := by
  obtain ⟨stage, st, ⟨s, tr⟩, b⟩ := mo
  obtain ⟨heval, hanswers⟩ := h
  cases stage with
  | ready =>
    obtain ⟨new, htr, -, hbill⟩ := hme.prepare st s tr
    have hpending : (Stage.ofPreparation (me.prepare st (s, tr)).1 : Stage α n).pending = 0 := by
      rcases (me.prepare st (s, tr)).1 with _ | reason <;> rfl
    rw [next_ready]
    constructor
    · have hmore := hbill.evaluations_eq hok
      simp only [Stage.pending] at heval
      simp only [htr, hpending, evaluationCalls_append]
      omega
    · simp only [htr, jacobianAnswers_append]
      exact (congrArg (· + jacobianAnswers new) hanswers).trans (hbill.answers_eq hok)
  | prepared =>
    have hcount := hb.propose st
    rw [next_prepared]
    constructor
    · simp only [Stage.pending] at heval ⊢
      omega
    · exact hanswers.trans (congrArg (answers * ·) (hme.propose st).symm)
  | proposed t =>
    -- the evaluation that was pending is made now
    obtain ⟨new, -, hone, hnone, hcall⟩ := p.traced_evaluate t.point s tr
    rcases hresult : p.evaluate t.point s with ⟨e | f, s'⟩
    · rw [hresult] at hcall
      rw [next_proposed_of_error hcall]
      constructor
      · simp only [evaluationCalls_append, hone, Stage.pending] at heval ⊢
        omega
      · rw [jacobianAnswers_append, hnone]
        exact hanswers
    · have hpending : (Stage.ofVerdict (me.judge st t f).1 : Stage α n).pending = 0 := by
        rcases (me.judge st t f).1 with _ | reason <;> rfl
      rw [hresult] at hcall
      rw [next_proposed_of_ok hcall]
      constructor
      · simp only [Stage.pending] at heval
        simp only [evaluationCalls_append, hone, hpending, hb.judge]
        omega
      · rw [jacobianAnswers_append, hnone, hme.judge]
        exact hanswers
  | ended reason => exact ⟨heval, hanswers⟩

/-- A move keeps the counts within their bounds. -/
theorem Metered.within_next (hme : me.Metered attempt extra answers) (hb : me.KeepsBudget budget)
    {mo : Moment (Traced σ α m n) α n τ} (h : me.Within budget extra (extra + answers) mo) :
    me.Within budget extra (extra + answers) (me.next accepts p.traced mo) := by
  obtain ⟨stage, st, ⟨s, tr⟩, b⟩ := mo
  obtain ⟨heval, hsize⟩ := h
  cases stage with
  | ready =>
    obtain ⟨new, htr, hnew, hbill⟩ := hme.prepare st s tr
    have hle := hbill.evaluations_le
    have hmul := Nat.mul_le_mul_right (extra + answers + 2) (hb.prepare st (s, tr))
    rw [next_ready]
    constructor
    · rcases (me.prepare st (s, tr)).1 with _ | reason <;>
        simp only [Stage.ofPreparation, Stage.reserve] at heval ⊢ <;> omega
    · rcases (me.prepare st (s, tr)).1 with _ | reason <;>
        simp only [Stage.ofPreparation, Stage.pending, Stage.credit, htr, Array.size_append]
          at hsize ⊢ <;> omega
  | prepared =>
    have hcount := hb.propose st
    rw [next_prepared]
    constructor
    · simp only [Stage.reserve] at heval ⊢
      omega
    · simp only [Stage.pending, Stage.credit, hcount, Nat.succ_mul] at hsize ⊢
      omega
  | proposed t =>
    obtain ⟨new, hone, -, -, hcall⟩ := p.traced_evaluate t.point s tr
    rcases hresult : p.evaluate t.point s with ⟨e | f, s'⟩
    · rw [hresult] at hcall
      rw [next_proposed_of_error hcall]
      constructor
      · exact heval
      · simp only [Stage.pending, Stage.credit, Array.size_append, hone] at hsize ⊢
        omega
    · rw [hresult] at hcall
      rw [next_proposed_of_ok hcall]
      constructor
      · -- the solve goes on only if there is budget left
        simp only [hb.judge]
        rcases hreason : (me.judge st t f).1 with _ | reason
        · have hlt := hb.goOn st t f hreason
          simp only [Stage.ofVerdict, Stage.reserve]
          omega
        · exact heval
      · simp only [hb.judge, Array.size_append, hone]
        rcases (me.judge st t f).1 with _ | reason <;>
          simp only [Stage.ofVerdict, Stage.pending, Stage.credit] at hsize ⊢ <;> omega
  | ended reason => exact ⟨heval, hsize⟩

end Moves

section Course

variable [Scalar α] {me : Method (Traced σ α m n) α m n τ}
  {attempt : τ → Traced σ α m n → Attempt} {extra answers calls budget : Nat}
  {accepts : Acceptance τ α m n} {nm : Numerics α} {c : Settings α} {p : Problem σ α m n}
  {x : Vec α n} {s : σ}

variable (nm c p x s) in
/-- A solve opens with one call, which is an evaluation and is counted. -/
theorem opening_traced (hstart : ∀ it, me.iterate (me.start it) = it) :
    (me.iterate (me.opening nm c p.traced x (s, #[])).state).evaluations = 1 ∧
      (me.iterate (me.opening nm c p.traced x (s, #[])).state).jacobians = 0 ∧
      (me.opening nm c p.traced x (s, #[])).world.2.size = 1 ∧
      evaluationCalls (me.opening nm c p.traced x (s, #[])).world.2 = 1 ∧
      jacobianAnswers (me.opening nm c p.traced x (s, #[])).world.2 = 0 ∧
      ∃ reason, (me.opening nm c p.traced x (s, #[])).stage = .ofVerdict reason := by
  obtain ⟨new, hone, hcalls, hnone, heval⟩ :=
    p.traced_evaluate (Iterate.start (m := m) c x).x s #[]
  rw [Array.empty_append] at heval
  rcases hresult : p.evaluate (Iterate.start (m := m) c x).x s with ⟨e | v, s'⟩
  all_goals
    rw [hresult] at heval
    simp only [opening, Iterate.evaluate, heval]
    exact ⟨congrArg Iterate.evaluations (hstart _), congrArg Iterate.jacobians (hstart _), hone,
      hcalls, hnone, _, rfl⟩

/-- The counts are in balance when a solve opens. -/
theorem balanced_opening (hstart : ∀ it, me.iterate (me.start it) = it) :
    me.Balanced answers (me.opening nm c p.traced x (s, #[])) := by
  obtain ⟨heval, hjac, -, hcalls, hnone, reason, hstage⟩ :=
    opening_traced nm c p x s hstart
  constructor
  · rw [heval, hcalls, hstage]
    cases reason <;> rfl
  · rw [hjac, hnone, Nat.mul_zero]

/-- The counts are within their bounds when a solve opens. -/
theorem within_opening (hstart : ∀ it, me.iterate (me.start it) = it) (hbudget : 1 < budget) :
    me.Within budget extra calls (me.opening nm c p.traced x (s, #[])) := by
  obtain ⟨heval, -, hsize, -, -, reason, hstage⟩ :=
    opening_traced nm c p x s hstart
  constructor
  · rw [heval, hstage]
    cases reason <;> simp only [Stage.ofVerdict, Stage.reserve] <;> omega
  · rw [heval, hsize, hstage]
    cases reason <;> simp only [Stage.ofVerdict, Stage.pending, Stage.credit] <;> omega

variable (accepts nm c p x s) in
/-- At every moment the linearizations completed so far have been counted. -/
theorem Metered.jacobians_course (hme : me.Metered attempt extra answers)
    (hstart : ∀ it, me.iterate (me.start it) = it) (k : Nat) :
    (me.iterate (me.course accepts nm c p.traced x (s, #[]) k).state).jacobians =
      Nat.count (fun i => ((me.course accepts nm c p.traced x (s, #[]) i).attempt
        attempt).isCompleted = true) k := by
  induction k with
  | zero =>
    rw [course_zero, Nat.count_zero]
    exact (opening_traced nm c p x s hstart).2.1
  | succ k ih => rw [course_succ, hme.jacobians_next, ih, Nat.count_succ]

/-- As long as no linearization aborts, the counts are in balance. -/
theorem Metered.balanced_course (hme : me.Metered attempt extra answers)
    (hb : me.KeepsBudget budget)
    (hstart : ∀ it, me.iterate (me.start it) = it) {k : Nat}
    (hok : ∀ i < k, ∀ a,
      (me.course accepts nm c p.traced x (s, #[]) i).attempt attempt ≠ .aborted a) :
    me.Balanced answers (me.course accepts nm c p.traced x (s, #[]) k) := by
  induction k with
  | zero => exact balanced_opening hstart
  | succ k ih =>
    rw [course_succ]
    exact hme.balanced_next hb (hok k (Nat.lt_succ_self k)) (ih fun i hi => hok i (by omega))

variable (accepts nm c p x s) in
/-- At every moment the counts are within their bounds. -/
theorem Metered.within_course (hme : me.Metered attempt extra answers) (hb : me.KeepsBudget budget)
    (hstart : ∀ it, me.iterate (me.start it) = it) (hbudget : 1 < budget) (k : Nat) :
    me.Within budget extra (extra + answers) (me.course accepts nm c p.traced x (s, #[]) k) :=
  course_induction (within_opening hstart hbudget) (fun _ => hme.within_next hb) k

/-- A linearization that aborts is the last move of the solve, and what it has called is not
counted. -/
theorem Metered.course_of_aborted (hme : me.Metered attempt extra answers) {k : Nat} {a : Abort}
    (hk : (me.course accepts nm c p.traced x (s, #[]) k).attempt attempt = .aborted a) :
    (me.course accepts nm c p.traced x (s, #[]) k).stage = .ready ∧
      (me.course accepts nm c p.traced x (s, #[]) (k + 1)).stage = .ended (.user a) ∧
      (me.iterate (me.course accepts nm c p.traced x (s, #[]) (k + 1)).state).evaluations =
        (me.iterate (me.course accepts nm c p.traced x (s, #[]) k).state).evaluations ∧
      (me.iterate (me.course accepts nm c p.traced x (s, #[]) (k + 1)).state).jacobians =
        (me.iterate (me.course accepts nm c p.traced x (s, #[]) k).state).jacobians ∧
      ∃ new : Array (Event α m n), evaluationCalls new ≤ extra ∧
        jacobianAnswers new ≤ answers - 1 ∧
        (me.course accepts nm c p.traced x (s, #[]) (k + 1)).world.2 =
          (me.course accepts nm c p.traced x (s, #[]) k).world.2 ++ new := by
  rw [course_succ]
  generalize me.course accepts nm c p.traced x (s, #[]) k = mo at hk
  obtain ⟨stage, st, ⟨s', tr⟩, b⟩ := mo
  cases stage with
  | ready =>
    obtain ⟨new, htr, -, hbill⟩ := hme.prepare st s' tr
    have hattempt : attempt st (s', tr) = .aborted a := hk
    have hreason := hme.aborted st (s', tr) a hattempt
    rw [hattempt] at hbill
    obtain ⟨hcalls, hless, heval, hjac⟩ := hbill.of_aborted
    rw [next_ready]
    refine ⟨rfl, ?_, heval, hjac, new, hcalls, hless, htr⟩
    rw [hreason]
    rfl
  | prepared => cases hk
  | proposed t => cases hk
  | ended reason => cases hk

/-- Before a linearization that aborts, the counts are in balance. -/
theorem Metered.balanced_of_aborted (hme : me.Metered attempt extra answers)
    (hb : me.KeepsBudget budget) (hstart : ∀ it, me.iterate (me.start it) = it) {k : Nat}
    {a : Abort}
    (hk : (me.course accepts nm c p.traced x (s, #[]) k).attempt attempt = .aborted a) :
    me.Balanced answers (me.course accepts nm c p.traced x (s, #[]) k) := by
  refine hme.balanced_course hb hstart ?_
  intro i hi a' ha'
  -- another one that aborted earlier would have ended the solve
  obtain ⟨hready, -⟩ := hme.course_of_aborted hk
  obtain ⟨-, hended, -⟩ := hme.course_of_aborted ha'
  rw [course_eq_of_stage (Nat.succ_le_of_lt hi) hended, hended] at hready
  cases hready

/-- After the solve comes at most the last report, which is no evaluation and asks for no
Jacobian. -/
theorem run_traced (me : Method (Traced σ α m n) α m n τ) (nm : Numerics α) (c : Settings α)
    (budget : Nat) (p : Problem σ α m n) (x : Vec α n) (s : Traced σ α m n) :
    ∃ last : Array (Event α m n), last.size ≤ 1 ∧ evaluationCalls last = 0 ∧
      jacobianAnswers last = 0 ∧
      (me.run nm c budget p.traced x s).1 = (me.solve nm c budget p.traced x s).1 ∧
      (me.run nm c budget p.traced x s).2.1 = (me.solve nm c budget p.traced x s).2.1 ∧
      (me.run nm c budget p.traced x s).2.2.2 =
        (me.solve nm c budget p.traced x s).2.2.2 ++ last := by
  rw [run_eq]
  by_cases hreports : 0 < c.reportEvery
  · rw [if_pos hreports]
    exact ⟨#[⟨.report _ _ _, _⟩], le_rfl, evaluationCalls_single _ _, jacobianAnswers_single _ _,
      rfl, rfl, Array.push_eq_append⟩
  · rw [if_neg hreports]
    exact ⟨#[], Nat.zero_le _, rfl, rfl, rfl, rfl, Array.append_empty.symm⟩

/-- A solve of a traced problem by a metered method that keeps to its budget has its accounts in
order. -/
theorem Metered.accounts (hme : me.Metered attempt extra answers) (hb : me.KeepsBudget budget)
    (hstart : ∀ it, me.iterate (me.start it) = it) (hbudget : 1 < budget) :
    Accounts (me.course accepts nm c p.traced x (s, #[])) (Moment.attempt attempt) budget extra
      answers
      ((me.iterate (me.run nm c budget p.traced x (s, #[])).2.1).summary
        (me.run nm c budget p.traced x (s, #[])).1)
      (me.run nm c budget p.traced x (s, #[])).2.2.2 := by
  obtain ⟨last, hlast, hcalls, hnone, hreason, hstate, htrace⟩ :=
    run_traced me nm c budget p x (s, #[])
  obtain ⟨k₀, b, hk₀⟩ := hb.exists_course_ended accepts p.traced (Nat.lt_of_succ_lt hbudget) hstart
    nm c x (s, #[])
  rw [hreason, hstate, htrace]
  generalize me.solve nm c budget p.traced x (s, #[]) = sol at hk₀
  obtain ⟨reason, st, s', calls'⟩ := sol
  have hwithin := hme.within_course accepts nm c p x s hb hstart hbudget k₀
  rw [hk₀] at hwithin
  have hbalanced (hok : ∀ k a,
      (me.course accepts nm c p.traced x (s, #[]) k).attempt attempt ≠ .aborted a) :
      me.Balanced answers ⟨.ended reason, st, (s', calls'), b⟩ :=
    hk₀ ▸ hme.balanced_course hb hstart fun i _ => hok i
  -- the solve has ended with the linearization that aborts
  have hended {k : Nat} {a : Abort}
      (hk : (me.course accepts nm c p.traced x (s, #[]) k).attempt attempt = .aborted a) :
      me.course accepts nm c p.traced x (s, #[]) (k + 1) =
        ⟨.ended reason, st, (s', calls'), b⟩ := by
    rw [← course_of_ended (Nat.le_max_left k₀ (k + 1)) hk₀,
      course_eq_of_stage (Nat.le_max_right k₀ (k + 1)) (hme.course_of_aborted hk).2.1]
  refine ⟨⟨k₀, ?_⟩, ?_, hwithin.evaluations_le, ?_, ?_, ?_, ?_⟩
  · intro k hk
    have hjac := hme.jacobians_course accepts nm c p x s hstart k
    rw [course_of_ended hk hk₀] at hjac ⊢
    exact ⟨rfl, hjac⟩
  · have hsize := hwithin.size_le
    simp only [Stage.pending, Stage.credit] at hsize
    simp only [Iterate.summary, Array.size_append, Nat.succ_mul]
    omega
  · intro hok
    rw [evaluationCalls_append, hcalls]
    exact (hbalanced hok).evaluations
  · intro hok
    rw [jacobianAnswers_append, hnone]
    exact (hbalanced hok).answers
  · intro k a hk
    have hbal := (hme.balanced_of_aborted hb hstart hk).evaluations
    obtain ⟨hready, hstage, heval, -, new, hnew, -, htr⟩ := hme.course_of_aborted hk
    have hgrow := congrArg evaluationCalls htr
    rw [hended hk] at hstage heval hgrow ⊢
    rw [hready] at hbal
    simp only [Stage.pending, Stage.ended.injEq, evaluationCalls_append] at hbal hstage heval hgrow
    simp only [Iterate.summary, evaluationCalls_append, hcalls]
    refine ⟨hstage, ?_, rfl, ?_, ?_⟩ <;> omega
  · intro k a hk
    have hbal := (hme.balanced_of_aborted hb hstart hk).answers
    obtain ⟨-, -, -, hjac, new, -, hless, htr⟩ := hme.course_of_aborted hk
    have hgrow := congrArg jacobianAnswers htr
    rw [hended hk] at hjac hgrow ⊢
    rw [← hjac] at hbal
    simp only [jacobianAnswers_append] at hbal hgrow
    simp only [Iterate.summary, jacobianAnswers_append, hnone]
    refine ⟨hbal, rfl, ?_, ?_⟩ <;> omega

end Course

end Method

end NonlinearSolve

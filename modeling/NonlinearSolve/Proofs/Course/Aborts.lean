import NonlinearSolve.Proofs.Course.Iterates

/-! # The calls of a solve and how they end it

A solve makes its calls one after the other until one of them aborts or it comes to an end by
itself: the list of its calls is orderly (`Orderly`). `MakesCalls` says so of a computation that
leaves its calls in a trace, and is put together from the parts of the computation
(`MakesCalls.append`). The parts of a method are recorded in this sense (`Recorded`), hence a whole
solve is (`Method.Records.solve`), and it stops at the first call that aborts (`StopsAtAbort`,
`Method.Records.stopsAtAbort`).

To see that the last report, which is made when the solve has ended, has no effect, the traced
problem is allowed to give another answer to a report that is made after a certain number of calls
(`Problem.answering`). Up to that number of calls nothing can be noticed. -/

namespace NonlinearSolve

variable {σ α τ : Type} {m n : Nat}

/-! ### Lists of calls -/

/-- In a list of calls that ends with an abort only the last call aborts, and in one that does not,
none. -/
def Orderly (calls : Array (Event α m n)) : Option Abort → Prop
  | none => ∀ e ∈ calls, e.abort = none
  | some a => ∃ (before : Array (Event α m n)) (last : Event α m n),
      calls = before.push last ∧ last.abort = some a ∧
        ∀ e ∈ before, e.abort = none

namespace Orderly

/-- No calls are orderly, and nothing has aborted. -/
theorem empty : Orderly (#[] : Array (Event α m n)) none := by
  intro e he
  exact absurd he (Array.not_mem_empty e)

/-- One call is orderly, and its answer is how it ends. -/
theorem single (call : Call α m n) (a : Option Abort) : Orderly #[⟨call, a⟩] a := by
  cases a with
  | none =>
    intro e he
    rw [List.mem_toArray, List.mem_singleton] at he
    rw [he]
  | some a => exact ⟨#[], ⟨call, some a⟩, rfl, rfl, empty⟩

/-- Calls of which none aborts can come before any orderly list of calls. -/
theorem append {before calls : Array (Event α m n)} {a : Option Abort} (hb : Orderly before none)
    (hc : Orderly calls a) : Orderly (before ++ calls) a := by
  have hall : ∀ calls : Array (Event α m n), (∀ e ∈ calls, e.abort = none) →
      ∀ e ∈ before ++ calls, e.abort = none := by
    intro calls hc e he
    rcases Array.mem_append.1 he with he | he
    · exact hb e he
    · exact hc e he
  cases a with
  | none => exact hall calls hc
  | some a =>
    -- the last call of the second list is the last one of both
    obtain ⟨calls, last, rfl, hlast, hc⟩ := hc
    exact ⟨before ++ calls, last, Array.append_push, hlast, hall calls hc⟩

/-- An abort in an orderly list of calls is the last call, and ends the list. -/
theorem eq_of_abort {calls : Array (Event α m n)} {a : Option Abort} (h : Orderly calls a)
    {i : Nat} (hi : i < calls.size) {b : Abort} (hb : calls[i].abort = some b) :
    i + 1 = calls.size ∧ a = some b := by
  cases a with
  | none =>
    have hnone := h calls[i] (Array.getElem_mem hi)
    rw [hb] at hnone
    cases hnone
  | some a =>
    obtain ⟨before, last, rfl, hlast, hbefore⟩ := h
    rw [Array.size_push] at hi ⊢
    by_cases hlt : i < before.size
    · have hnone := hbefore before[i] (Array.getElem_mem hlt)
      rw [Array.getElem_push_lt hlt, hnone] at hb
      cases hb
    · obtain rfl : i = before.size := by omega
      rw [Array.getElem_push_eq, hlast] at hb
      exact ⟨rfl, hb⟩

/-- A list of calls that ends with an abort has a call that aborted. -/
theorem exists_abort {calls : Array (Event α m n)} {a : Abort} (h : Orderly calls (some a)) :
    ∃ e ∈ calls, e.abort = some a := by
  obtain ⟨before, last, rfl, hlast, -⟩ := h
  exact ⟨last, Array.mem_push_self, hlast⟩

end Orderly

/-- The abort that ended a solve. -/
def Termination.abort? : Termination → Option Abort
  | user a => some a
  | _ => none

/-- Only a termination by the user carries an abort. -/
theorem Termination.abort?_eq_some {t : Termination} {a : Abort} :
    t.abort? = some a ↔ t = .user a := by
  cases t <;> simp [abort?]

/-! ### Traced problems with other answers -/

/-- The state of the callbacks of a traced problem. -/
abbrev Traced (σ α : Type) (m n : Nat) := σ × Array (Event α m n)

/-- Answers to reports. -/
abbrev Answer (σ α : Type) (m n : Nat) := Nat → Vec α n → Vec α m → Callback (Traced σ α m n) Unit

/-- The traced problem, but that a report after exactly `k` calls is answered by `answer`. -/
def Problem.answering (p : Problem σ α m n) (k : Nat) (answer : Answer σ α m n) :
    Problem (Traced σ α m n) α m n :=
  { p.traced with
    report := fun i x f s =>
      if s.2.size = k then answer i x f s else p.traced.report i x f s }

/-- The traced problem, but that a report after exactly `k` calls is answered by `answer`. -/
def JacobianProblem.answering (p : JacobianProblem σ α m n) (k : Nat) (answer : Answer σ α m n) :
    JacobianProblem (Traced σ α m n) α m n :=
  { p.traced with toProblem := p.toProblem.answering k answer }

/-- The traced problem, but that a report after exactly `k` calls is answered by `answer`. -/
def RowProblem.answering (p : RowProblem σ α m n) (k : Nat) (answer : Answer σ α m n) :
    RowProblem (Traced σ α m n) α m n :=
  { p.traced with toProblem := p.toProblem.answering k answer }

/-- The traced problem gives its own answers. -/
theorem Problem.answering_traced (p : Problem σ α m n) (k : Nat) :
    p.answering k p.traced.report = p.traced := by
  simp only [answering, ite_self]

/-- Answering as the reports do anyway changes nothing in a problem with a Jacobian. -/
theorem JacobianProblem.answering_traced (p : JacobianProblem σ α m n) (k : Nat) :
    p.answering k p.toProblem.traced.report = p.traced := by
  rw [answering, Problem.answering_traced]
  rfl

/-- Answering as the reports do anyway changes nothing in a problem given by rows. -/
theorem RowProblem.answering_traced (p : RowProblem σ α m n) (k : Nat) :
    p.answering k p.toProblem.traced.report = p.traced := by
  rw [answering, Problem.answering_traced]
  rfl

namespace Callback

/-- A call is one event. -/
theorem traced_apply {β : Type} (call : Call α m n) (f : Callback σ β) (s : σ)
    (tr : Array (Event α m n)) :
    traced call f (s, tr) = ((f s).1, (f s).2, tr ++ #[⟨call, abort? (f s).1⟩]) := by
  rw [traced, Array.push_eq_append]

end Callback

/-- Below the number of calls in question, reports are answered as usual. -/
theorem Problem.report_answering (p : Problem σ α m n) {k : Nat} (answer : Answer σ α m n)
    (i : Nat) (x : Vec α n) (f : Vec α m) (s : σ) {tr : Array (Event α m n)} (hk : tr.size < k) :
    (p.answering k answer).report i x f (s, tr) =
      ((p.report i x f s).1, (p.report i x f s).2,
        tr ++ #[⟨.report i x f, Callback.abort? (p.report i x f s).1⟩]) := by
  have hne : tr.size ≠ k := Nat.ne_of_lt hk
  rw [← Callback.traced_apply]
  exact if_neg hne

/-! ### Recorded parts of a solve -/

/-- The abort of a verdict. -/
def verdictAbort (reason : Option Termination) : Option Abort := reason.bind Termination.abort?

/-- A computation over a trace makes an orderly list of calls, which ends as `a` says. Its result is
`out` of the trace with these calls, as long as reports are answered as usual. -/
def MakesCalls {β : Type} (a : Option Abort)
    (run : Nat → Answer σ α m n → Array (Event α m n) → β) (out : Array (Event α m n) → β) :
    Prop :=
  ∃ calls : Array (Event α m n), Orderly calls a ∧
    ∀ k answer tr, tr.size + calls.size ≤ k → run k answer tr = out (tr ++ calls)

namespace MakesCalls

variable {β β₁ β₂ : Type} {a : Option Abort}
  {run : Nat → Answer σ α m n → Array (Event α m n) → β} {out : Array (Event α m n) → β}
  {run₁ : Nat → Answer σ α m n → Array (Event α m n) → β₁} {out₁ : Array (Event α m n) → β₁}
  {run₂ : Nat → Answer σ α m n → Array (Event α m n) → β₂} {out₂ : Array (Event α m n) → β₂}

/-- A computation without any call. -/
theorem silent (h : ∀ k answer tr, run k answer tr = out tr) : MakesCalls none run out := by
  refine ⟨#[], Orderly.empty, ?_⟩
  intro k answer tr _
  rw [Array.append_empty]
  exact h k answer tr

/-- A computation with one call. -/
theorem single (call : Call α m n)
    (h : ∀ k answer tr, tr.size < k → run k answer tr = out (tr ++ #[⟨call, a⟩])) :
    MakesCalls a run out := by
  refine ⟨#[⟨call, a⟩], Orderly.single call a, ?_⟩
  intro k answer tr hk
  exact h k answer tr hk

/-- What is done with the result makes no further call. -/
theorem map (h₁ : MakesCalls a run₁ out₁)
    (h : ∀ k answer tr tr', run₁ k answer tr = out₁ tr' → run k answer tr = out tr') :
    MakesCalls a run out := by
  obtain ⟨calls, horder, htrace⟩ := h₁
  refine ⟨calls, horder, ?_⟩
  intro k answer tr hk
  exact h k answer tr _ (htrace k answer tr hk)

/-- If no call of a computation aborts, another one can follow, which finds the calls of the first
one in the trace. -/
theorem append (h₁ : MakesCalls none run₁ out₁) (h₂ : MakesCalls a run₂ out₂)
    (h : ∀ k answer tr tr₁ tr₂, run₁ k answer tr = out₁ tr₁ → run₂ k answer tr₁ = out₂ tr₂ →
      run k answer tr = out tr₂) :
    MakesCalls a run out := by
  obtain ⟨calls₁, horder₁, htrace₁⟩ := h₁
  obtain ⟨calls₂, horder₂, htrace₂⟩ := h₂
  refine ⟨calls₁ ++ calls₂, horder₁.append horder₂, ?_⟩
  intro k answer tr hk
  rw [Array.size_append] at hk
  have hfirst := htrace₁ k answer tr (by omega)
  have hsecond := htrace₂ k answer (tr ++ calls₁) (by rw [Array.size_append]; omega)
  rw [h k answer tr _ _ hfirst hsecond, Array.append_assoc]

end MakesCalls

namespace Callback

/-- A traced call is one call, with its own answer. -/
theorem makesCalls_traced {β : Type} (call : Call α m n) (f : Callback σ β) (s : σ) :
    MakesCalls (abort? (f s).1) (fun _ (_ : Answer σ α m n) tr => traced call f (s, tr))
      fun tr => ((f s).1, (f s).2, tr) :=
  MakesCalls.single call fun _ _ tr _ => traced_apply call f s tr

end Callback

/-- An evaluation makes one call. -/
theorem Problem.makesCalls_evaluate (p : Problem σ α m n) (x : Vec α n) (s : σ) :
    MakesCalls (Callback.abort? (p.evaluate x s).1)
      (fun k answer tr => (p.answering k answer).evaluate x (s, tr))
      fun tr => ((p.evaluate x s).1, (p.evaluate x s).2, tr) :=
  Callback.makesCalls_traced (.evaluate x) (p.evaluate x) s

/-- Asking for the Jacobian makes one call. -/
theorem JacobianProblem.makesCalls_jacobian (p : JacobianProblem σ α m n) (x : Vec α n) (s : σ) :
    MakesCalls (Callback.abort? (p.jacobian x s).1)
      (fun k answer tr => (p.answering k answer).jacobian x (s, tr))
      fun tr => ((p.jacobian x s).1, (p.jacobian x s).2, tr) :=
  Callback.makesCalls_traced (.jacobian x) (p.jacobian x) s

/-- Asking for a row of the Jacobian makes one call. -/
theorem RowProblem.makesCalls_jacobianRow (p : RowProblem σ α m n) (x : Vec α n) (i : Fin m)
    (s : σ) :
    MakesCalls (Callback.abort? (p.jacobianRow x i s).1)
      (fun k answer tr => (p.answering k answer).jacobianRow x i (s, tr))
      fun tr => ((p.jacobianRow x i s).1, (p.jacobianRow x i s).2, tr) :=
  Callback.makesCalls_traced (.jacobianRow x i) (p.jacobianRow x i) s

/-- A part `g` of a solve and the same part `g'` for the traced problem with other answers: the part
makes an orderly list of calls, which ends as its result says, and leaves it in the trace. -/
def Recorded {ρ : Type} (abort? : ρ → Option Abort) (g : σ → ρ × τ × σ)
    (g' : Nat → Answer σ α m n → Traced σ α m n → ρ × τ × Traced σ α m n) : Prop :=
  ∀ s, MakesCalls (abort? (g s).1) (fun k answer tr => g' k answer (s, tr))
    fun tr => ((g s).1, (g s).2.1, (g s).2.2, tr)

/-- The same for a loop over callbacks that keeps two results. -/
def RecordedLoop {β γ : Type} (g : σ → Except Abort Unit × β × γ × σ)
    (g' : Nat → Answer σ α m n → Traced σ α m n →
      Except Abort Unit × β × γ × Traced σ α m n) : Prop :=
  ∀ s, MakesCalls (Callback.abort? (g s).1) (fun k answer tr => g' k answer (s, tr))
    fun tr => ((g s).1, (g s).2.1, (g s).2.2.1, (g s).2.2.2, tr)

/-- A report that may be due is recorded. -/
theorem recorded_reportIfDue [Scalar α] (c : Settings α) (p : Problem σ α m n)
    (it : Iterate α m n) (s : σ) :
    MakesCalls (Callback.abort? (it.reportIfDue c p s).1)
      (fun k answer tr => it.reportIfDue c (p.answering k answer) (s, tr))
      fun tr => ((it.reportIfDue c p s).1, (it.reportIfDue c p s).2, tr) := by
  by_cases hdue : c.reportDue it.iteration
  · simp only [Iterate.reportIfDue, if_pos hdue]
    refine MakesCalls.single (.report it.iteration it.x it.residuals) ?_
    intro k answer tr hk
    exact p.report_answering answer it.iteration it.x it.residuals s hk
  · simp only [Iterate.reportIfDue, if_neg hdue]
    refine MakesCalls.silent ?_
    intro k answer tr
    rfl

namespace Method

/-- For the traced problem with other answers after `k` calls, the method `me' k answer` does what
`me` does for the problem itself, and its preparations are recorded. -/
structure Records (me : Method σ α m n τ)
    (me' : Nat → Answer σ α m n → Method (Traced σ α m n) α m n τ) : Prop where
  start (k : Nat) (answer : Answer σ α m n) : (me' k answer).start = me.start
  iterate (k : Nat) (answer : Answer σ α m n) : (me' k answer).iterate = me.iterate
  propose (k : Nat) (answer : Answer σ α m n) : (me' k answer).propose = me.propose
  judge (k : Nat) (answer : Answer σ α m n) : (me' k answer).judge = me.judge
  judge_abort (st : τ) (t : Proposal α n) (f : Vec α m) :
    verdictAbort (me.judge st t f).1 = none
  prepare (st : τ) :
    Recorded verdictAbort (me.prepare st) fun k answer => (me' k answer).prepare st

variable {me : Method σ α m n τ}
  {me' : Nat → Answer σ α m n → Method (Traced σ α m n) α m n τ} (hme : me.Records me')
  (p : Problem σ α m n)

include hme

/-- A trial step makes one call. -/
theorem Records.attempt (st : τ) :
    Recorded verdictAbort (me.attempt p st)
      fun k answer => (me' k answer).attempt (p.answering k answer) st := by
  intro s
  rcases hpropose : me.propose st with ⟨t, st'⟩
  have hcall := p.makesCalls_evaluate t.point s
  -- the verdict makes no call and is no abort, so the evaluation alone decides
  rcases heval : p.evaluate t.point s with ⟨e | f, s'⟩
  all_goals
    simp only [heval] at hcall
    simp only [Method.attempt, hme.propose, hpropose, heval, hme.judge_abort]
    refine hcall.map ?_
    intro k answer tr tr' h
    simp only [h, hme.judge]

/-- A round makes the calls of its preparation and, unless these end it, of its trial step. -/
theorem Records.round (st : τ) :
    Recorded verdictAbort (fun s => me.round p (st, s))
      fun k answer s => (me' k answer).round (p.answering k answer) (st, s) := by
  intro s
  have hprepare := hme.prepare st s
  rcases hprep : me.prepare st s with ⟨_ | reason, st₁, s₁⟩
  all_goals
    simp only [hprep] at hprepare
    simp only [Method.round, hprep]
  · refine hprepare.append (hme.attempt p st₁ s₁) ?_
    intro k answer tr tr₁ tr₂ h₁ h₂
    simp only [h₁, h₂]
  · refine hprepare.map ?_
    intro k answer tr tr' h
    simp only [h]

/-- Rounds are recorded one after the other. -/
theorem Records.repeatRound (rounds : Nat) (st : τ) :
    Recorded Termination.abort? (fun s => repeatRound (me.round p) rounds (st, s))
      fun k answer s =>
        NonlinearSolve.repeatRound ((me' k answer).round (p.answering k answer)) rounds
          (st, s) := by
  induction rounds generalizing st with
  | zero =>
    intro s
    refine MakesCalls.silent ?_
    intro k answer tr
    rfl
  | succ rounds ih =>
    intro s
    have hround := hme.round p st s
    rcases hresult : me.round p (st, s) with ⟨_ | reason, st₁, s₁⟩
    all_goals
      simp only [hresult] at hround
      simp only [NonlinearSolve.repeatRound, hresult]
    · refine hround.append (ih st₁ s₁) ?_
      intro k answer tr tr₁ tr₂ h₁ h₂
      simp only [h₁, h₂]
    · refine hround.map ?_
      intro k answer tr tr' h
      simp only [h]

variable [Scalar α] (nm : Numerics α) (c : Settings α)

omit hme in
/-- The first evaluation is recorded. -/
theorem recorded_evaluate (it : Iterate α m n) :
    Recorded verdictAbort (it.evaluate nm p)
      fun k answer => it.evaluate nm (p.answering k answer) := by
  intro s
  have hcall := p.makesCalls_evaluate it.x s
  rcases heval : p.evaluate it.x s with ⟨e | f, s'⟩
  · simp only [heval] at hcall
    simp only [Iterate.evaluate, heval]
    refine hcall.map ?_
    intro k answer tr tr' h
    simp only [h]
  · have habort : verdictAbort (it.evaluate nm p s).1 = none := by
      simp only [Iterate.evaluate, heval]
      split <;> rfl
    simp only [heval] at hcall
    rw [habort]
    simp only [Iterate.evaluate, heval]
    refine hcall.map ?_
    intro k answer tr tr' h
    simp only [h]

/-- All of a solve up to its end is recorded. -/
theorem Records.solve (budget : Nat) (x : Vec α n) :
    Recorded Termination.abort? (me.solve nm c budget p x)
      fun k answer => (me' k answer).solve nm c budget (p.answering k answer) x := by
  intro s
  have hevaluate := recorded_evaluate p nm (Iterate.start c x) s
  rcases heval : (Iterate.start c x).evaluate nm p s with ⟨_ | reason, it, s₁⟩
  all_goals
    simp only [heval] at hevaluate
    simp only [Method.solve, heval]
  · refine hevaluate.append (hme.repeatRound p budget (me.start it) s₁) ?_
    intro k answer tr tr₁ tr₂ h₁ h₂
    simp only [h₁, hme.start, h₂]
  · refine hevaluate.map ?_
    intro k answer tr tr' h
    simp only [h, hme.start]

/-- After a solve at most the last report is made, and what it answers goes into the state of the
callbacks only. -/
theorem Records.run (budget : Nat) (x : Vec α n) (s : σ) :
    ∃ calls : Array (Event α m n), Orderly calls (me.solve nm c budget p x s).1.abort? ∧
      ∀ answer, (me' calls.size answer).run nm c budget (p.answering calls.size answer) x (s, #[]) =
        ((me.solve nm c budget p x s).1, (me.solve nm c budget p x s).2.1,
          if 0 < c.reportEvery then
            (answer (me.iterate (me.solve nm c budget p x s).2.1).iteration
              (me.iterate (me.solve nm c budget p x s).2.1).x
              (me.iterate (me.solve nm c budget p x s).2.1).residuals
              ((me.solve nm c budget p x s).2.2, calls)).2
          else ((me.solve nm c budget p x s).2.2, calls)) := by
  obtain ⟨calls, horder, htrace⟩ := hme.solve p nm c budget x s
  refine ⟨calls, horder, ?_⟩
  intro answer
  -- the other answer is given only after all of `calls`, that is to the last report
  have hsolve := htrace calls.size answer #[] (by simp)
  simp only [Array.empty_append] at hsolve
  rw [run_eq, hsolve, hme.iterate]
  simp only [Problem.answering, if_true]

end Method

/-! ### Stopping at an abort -/

/-- A solve with the moments `course`, of which `sm` is the summary and `code` the code, stops at
the first call that aborts. The list `calls` has all its calls but the last report, and `trace` has
that as well. -/
structure StopsAtAbort (course : Nat → Moment σ α n τ) (reportEvery : Nat) (sm : Summary α m n)
    (code : Int) (calls trace : Array (Event α m n)) : Prop where
  /-- A call that aborts is the last one, and the solve ends by this abort. -/
  abort_last (i : Nat) (hi : i < calls.size) (a : Abort) :
    calls[i].abort = some a → i + 1 = calls.size ∧ sm.termination = .user a
  /-- The solve ends by an abort only if a call aborted. -/
  exists_abort (a : Abort) : sm.termination = .user a → ∃ e ∈ calls, e.abort = some a
  /-- The code is then the status of the abort, which is negative. -/
  code_eq (a : Abort) : sm.termination = .user a → code = a.status ∧ code < 0
  /-- The unknowns are those of the starting point or of the last accepted step. -/
  at_base : ∃ k, (course k).stage = .ended sm.termination ∧ sm.x = (course k).base
  /-- One report follows, unless there are no reports or the input was rejected. -/
  trace_eq : (trace = calls ∧ (reportEvery = 0 ∨ ∃ e, sm.termination = .invalidInput e)) ∨
    0 < reportEvery ∧ ∃ k answer, trace = calls.push ⟨.report k sm.x sm.residuals, answer⟩

/-- A solve whose input is rejected makes no call. -/
theorem StopsAtAbort.of_rejected {course : Nat → Moment σ α n τ} {reportEvery : Nat}
    {sm : Summary α m n} {code : Int} {e : InputError} (hsm : sm.termination = .invalidInput e)
    (hstage : (course 0).stage = .ended sm.termination) (hbase : sm.x = (course 0).base) :
    StopsAtAbort course reportEvery sm code #[] #[] where
  abort_last _ hi _ _ := absurd hi (Nat.not_lt_zero _)
  exists_abort a ha := by
    rw [hsm] at ha
    cases ha
  code_eq a ha := by
    rw [hsm] at ha
    cases ha
  at_base := ⟨0, hstage, hbase⟩
  trace_eq := Or.inl ⟨rfl, Or.inr ⟨e, hsm⟩⟩

/-- A solve by a steady and recorded method stops at the first call that aborts, and the answer to
the last report has no effect. -/
theorem Method.Records.stopsAtAbort [Scalar α] {me : Method σ α m n τ}
    {me' : Nat → Answer σ α m n → Method (Traced σ α m n) α m n τ} (hrec : me.Records me')
    {accepts : Acceptance τ α m n} {nm : Numerics α} (hme : me.Steady accepts nm) {budget : Nat}
    (hb : me.KeepsBudget budget) (hpos : 0 < budget) (code : Termination → Int)
    (hcode : ∀ a, code (.user a) = a.status) (c : Settings α) (p : Problem σ α m n) (x : Vec α n)
    (s : σ) :
    ∃ calls : Array (Event α m n),
      StopsAtAbort (me.course accepts nm c p x s) c.reportEvery
        ((me.iterate (me.solve nm c budget p x s).2.1).summary (me.solve nm c budget p x s).1)
        (code (me.solve nm c budget p x s).1) calls
        ((me' calls.size p.traced.report).run nm c budget
          (p.answering calls.size p.traced.report) x (s, #[])).2.2.2 ∧
      ∀ answer,
        ((me' calls.size answer).run nm c budget (p.answering calls.size answer) x (s, #[])).1 =
          (me.solve nm c budget p x s).1 ∧
        ((me' calls.size answer).run nm c budget (p.answering calls.size answer) x
          (s, #[])).2.1 = (me.solve nm c budget p x s).2.1 := by
  obtain ⟨calls, horder, hrun⟩ := hrec.run p nm c budget x s
  obtain ⟨k, b, hk⟩ := hb.exists_course_ended accepts p hpos hme.start nm c x s
  have hbase := hme.x_course (p := p) (c := c) (x := x) (s := s) k
  refine ⟨calls, ⟨?_, ?_, ?_, ⟨k, ?_, ?_⟩, ?_⟩, ?_⟩
  · intro i hi a ha
    obtain ⟨hlast, habort⟩ := horder.eq_of_abort hi ha
    exact ⟨hlast, Termination.abort?_eq_some.1 habort⟩
  · intro a ha
    have habort : (me.solve nm c budget p x s).1.abort? = some a := Termination.abort?_eq_some.2 ha
    rw [habort] at horder
    exact horder.exists_abort
  · intro a ha
    have hreason : (me.solve nm c budget p x s).1 = .user a := ha
    rw [hreason, hcode]
    exact ⟨rfl, a.status_neg⟩
  · rw [hk]
    rfl
  · rw [hk] at hbase ⊢
    exact hbase
  · rw [hrun]
    by_cases hreports : 0 < c.reportEvery
    · rw [if_pos hreports]
      exact Or.inr ⟨hreports, _, _, rfl⟩
    · rw [if_neg hreports]
      exact Or.inl ⟨rfl, Or.inl (by omega)⟩
  · intro answer
    rw [hrun]
    exact ⟨rfl, rfl⟩

end NonlinearSolve

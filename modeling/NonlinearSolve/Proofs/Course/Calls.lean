import Mathlib.Data.List.Chain
import NonlinearSolve.Proofs.Course.Accounts

/-! # The calls of a solve without aborts

If no callback of a problem ever aborts (`Problem.NeverAborts`), the trace of a solve is a list of
calls that all end well (`settled`). Here is what such a trace is put together from: the iterates of
a solve (`iterates`), read off its course, and the calls of one outer iteration after the other
(`Outer.calls`). -/

namespace NonlinearSolve

variable {σ α τ : Type} {m n : Nat}

/-! ### Callbacks that do not abort -/

/-- A callback that does not abort in any state. -/
def Callback.Succeeds {β : Type} (f : Callback σ β) : Prop := ∀ s, ∃ v s', f s = (.ok v, s')

/-- A problem of which neither an evaluation nor a report ever aborts. -/
structure Problem.NeverAborts (p : Problem σ α m n) : Prop where
  evaluate (x : Vec α n) : Callback.Succeeds (p.evaluate x)
  report (k : Nat) (x : Vec α n) (f : Vec α m) : Callback.Succeeds (p.report k x f)

/-- A problem none of whose callbacks ever aborts. -/
structure JacobianProblem.NeverAborts (p : JacobianProblem σ α m n) : Prop
    extends p.toProblem.NeverAborts where
  jacobian (x : Vec α n) : Callback.Succeeds (p.jacobian x)

/-- A problem none of whose callbacks ever aborts. -/
structure RowProblem.NeverAborts (p : RowProblem σ α m n) : Prop
    extends p.toProblem.NeverAborts where
  jacobianRow (x : Vec α n) (i : Fin m) : Callback.Succeeds (p.jacobianRow x i)

/-- The trace of calls that all end well. -/
def settled (calls : List (Call α m n)) : Array (Event α m n) :=
  (calls.map fun call => ⟨call, none⟩).toArray

/-- A call that does not abort comes last in the trace. -/
theorem Callback.Succeeds.traced {β : Type} {f : Callback σ β} (hf : Callback.Succeeds f)
    (call : Call α m n) (s : σ) (calls : List (Call α m n)) :
    ∃ v s', f s = (.ok v, s') ∧
      Callback.traced call f (s, settled calls) = (.ok v, s', settled (calls ++ [call])) := by
  obtain ⟨v, s', h⟩ := hf s
  refine ⟨v, s', h, ?_⟩
  simp only [Callback.traced, h, Callback.abort?, settled, List.push_toArray, List.map_append,
    List.map_cons, List.map_nil]

/-! ### Iterates -/

/-- The point that the move after a moment accepts as the next iterate, with the residuals there, if
it accepts one. -/
def accepted? (accepts : Acceptance τ α m n) (p : Problem σ α m n) (mo : Moment σ α n τ) :
    Option (Vec α n × Vec α m) :=
  match mo.stage with
  | .proposed t =>
    match p.evaluate t.point mo.world with
    | (.error _, _) => none
    | (.ok f, _) => if accepts mo.state t f then some (t.point, f) else none
  | _ => none

/-- The iterates of a solve up to a moment of its course, beginning with the `first` one. -/
def iterates (accepts : Acceptance τ α m n) (p : Problem σ α m n) (first : Vec α n × Vec α m)
    (course : Nat → Moment σ α n τ) : Nat → List (Vec α n × Vec α m)
  | 0 => [first]
  | k + 1 => iterates accepts p first course k ++ (accepted? accepts p (course k)).toList

/-! ### Outer iterations -/

/-- An outer iteration of a solve, which lasts as long as its iterate. -/
structure Outer (α : Type) (m n : Nat) where
  /-- The iterate. -/
  x : Vec α n
  /-- The residuals at the iterate. -/
  residuals : Vec α m
  /-- The points of the trial steps. -/
  trials : List (Vec α n)

namespace Outer

/-- The iterate with its residuals. -/
def start (o : Outer α m n) : Vec α n × Vec α m := (o.x, o.residuals)

/-- The outer iteration leads to the next one, which starts at the point of the last trial step. -/
def LeadsTo (o o' : Outer α m n) : Prop := o.trials.getLast? = some o'.x

/-- The calls of the outer iteration `o`, before which there were `k` others: a report of every
iteration whose number is one more than a multiple of `q`, unless this is zero; the linearization,
which makes the calls `lin`; and the evaluations at the trial points. -/
def calls (lin : Vec α n → List (Call α m n)) (q : Nat) (o : Outer α m n) (k : Nat) :
    List (Call α m n) :=
  (if 0 < q ∧ q ∣ k then [.report (k + 1) o.x o.residuals] else []) ++ lin o.x ++
    o.trials.map .evaluate

end Outer

/-- The calls of outer iterations. -/
def outerCalls (lin : Vec α n → List (Call α m n)) (q : Nat) (outer : List (Outer α m n)) :
    List (Call α m n) :=
  outer.zipIdx.flatMap fun o => o.1.calls lin q o.2

/-- Another iteration appends its calls to those before. -/
theorem outerCalls_append (lin : Vec α n → List (Call α m n)) (q : Nat)
    (outer : List (Outer α m n)) (o : Outer α m n) :
    outerCalls lin q (outer ++ [o]) = outerCalls lin q outer ++ o.calls lin q outer.length := by
  simp [outerCalls, List.zipIdx_append]

/-- The outer iterations before that of the last iterate, which is `x` with the residuals `f`. -/
structure Awaits (its : List (Vec α n × Vec α m)) (outer : List (Outer α m n)) (x : Vec α n)
    (f : Vec α m) : Prop where
  iterates : its = outer.map Outer.start ++ [(x, f)]
  chain : List.IsChain Outer.LeadsTo (outer ++ [⟨x, f, []⟩])

/-- The outer iterations, the last of which is that of the last iterate, `x` with the residuals
`f`. -/
structure Runs (its : List (Vec α n × Vec α m)) (outer : List (Outer α m n)) (x : Vec α n)
    (f : Vec α m) : Prop where
  last : ∃ before trials, outer = before ++ [⟨x, f, trials⟩]
  iterates : its = outer.map Outer.start
  chain : List.IsChain Outer.LeadsTo outer

section OuterIterations

variable {its : List (Vec α n × Vec α m)} {outer : List (Outer α m n)} {x : Vec α n} {f : Vec α m}

/-- An iterate that waits for its next linearization has finished one iteration for each entry of
the record, and begun one more. -/
theorem Awaits.length_eq (h : Awaits its outer x f) : its.length = outer.length + 1 := by
  rw [h.iterates, List.length_append, List.length_map, List.length_singleton]

/-- The outer iteration that was awaited begins. -/
theorem Awaits.begin (h : Awaits its outer x f) : Runs its (outer ++ [⟨x, f, []⟩]) x f where
  last := ⟨outer, [], rfl⟩
  iterates := by
    rw [h.iterates, List.map_append]
    rfl
  chain := h.chain

/-- A trial step belongs to the outer iteration that runs. Another one may begin at its point. -/
theorem Runs.trial (h : Runs its outer x f) (lin : Vec α n → List (Call α m n)) (q : Nat)
    (y : Vec α n) :
    ∃ outer', outerCalls lin q outer' = outerCalls lin q outer ++ [.evaluate y] ∧
      outer'.length = outer.length ∧ Runs its outer' x f ∧
      ∀ g, Awaits (its ++ [(y, g)]) outer' y g := by
  obtain ⟨⟨before, trials, rfl⟩, hits, hchain⟩ := h
  -- the trial points of the last outer iteration do not matter to those before
  have hchain' : List.IsChain Outer.LeadsTo (before ++ [⟨x, f, trials ++ [y]⟩]) := by
    rw [List.isChain_append] at hchain ⊢
    obtain ⟨hbefore, -, hlast⟩ := hchain
    refine ⟨hbefore, List.isChain_singleton _, ?_⟩
    intro o ho o' ho'
    cases ho'
    exact hlast o ho ⟨x, f, trials⟩ rfl
  have hits' : its = List.map Outer.start (before ++ [⟨x, f, trials ++ [y]⟩]) := by
    rw [hits, List.map_append, List.map_append]
    rfl
  refine ⟨before ++ [⟨x, f, trials ++ [y]⟩], ?_, ?_, ⟨⟨before, _, rfl⟩, hits', hchain'⟩, ?_⟩
  · simp [outerCalls_append, Outer.calls]
  · rw [List.length_append, List.length_append]
    rfl
  · intro g
    refine ⟨by rw [← hits'], ?_⟩
    rw [List.isChain_append]
    refine ⟨hchain', List.isChain_singleton _, ?_⟩
    intro o ho o' ho'
    rw [List.getLast?_concat] at ho
    cases ho
    cases ho'
    exact List.getLast?_concat

end OuterIterations

/-- The calls `trace` of a solve from `x` on, with the summary `sm`, are those of the outer
iterations `outer` through the iterates `its`. -/
structure IsTraceOf (lin : Vec α n → List (Call α m n)) (q : Nat) (x : Vec α n)
    (its : List (Vec α n × Vec α m)) (outer : List (Outer α m n)) (sm : Summary α m n)
    (trace : Array (Event α m n)) : Prop where
  /-- The outer iterations start at the iterates, but the last iterate may end the solve. -/
  between : Awaits its outer sm.x sm.residuals ∨ Runs its outer sm.x sm.residuals
  /-- Every outer iteration has counted for one Jacobian. -/
  jacobians : sm.jacobians = outer.length
  /-- After the first evaluation come the calls of the outer iterations, and then the last report,
  if there are reports at all. -/
  trace_eq : trace = settled (.evaluate x :: outerCalls lin q outer ++
    if 0 < q then [.report its.length sm.x sm.residuals] else [])

/-- A solve with the moments `course` ends, and its trace is that of its outer iterations. -/
def ReportsIterations (accepts : Acceptance τ α m n) (p : Problem σ α m n) (x : Vec α n) (s : σ)
    (lin : Vec α n → List (Call α m n)) (q : Nat) (course : Nat → Moment σ α n τ)
    (sm : Summary α m n) (trace : Array (Event α m n)) : Prop :=
  ∃ f s₁ k outer, p.evaluate x s = (.ok f, s₁) ∧ (course k).stage = .ended sm.termination ∧
    IsTraceOf lin q x (iterates accepts p (x, f) course k) outer sm trace

/-! ### Reports -/

/-- Iteration `k + 1` is reported if `q` is not zero and divides `k`. -/
theorem Settings.reportDue_succ {c : Settings α} (k : Nat) :
    c.reportDue (k + 1) = true ↔ 0 < c.reportEvery ∧ c.reportEvery ∣ k := by
  simp [Settings.reportDue, Nat.dvd_iff_mod_eq_zero]

/-- If no report aborts, the report of iteration `k + 1` is made if it is due. -/
theorem Problem.NeverAborts.reportIfDue [Scalar α] {p : Problem σ α m n} (hp : p.NeverAborts)
    (c : Settings α) (it : Iterate α m n) {k : Nat} (hk : it.iteration = k + 1) (s : σ)
    (calls : List (Call α m n)) :
    ∃ s', it.reportIfDue c p.traced (s, settled calls) =
      (.ok (), s', settled (calls ++ if 0 < c.reportEvery ∧ c.reportEvery ∣ k then
        [.report (k + 1) it.x it.residuals] else [])) := by
  rw [Iterate.reportIfDue, hk]
  by_cases hdue : c.reportDue (k + 1) = true
  · obtain ⟨_, s', -, hcall⟩ := (hp.report (k + 1) it.x it.residuals).traced
      (.report (k + 1) it.x it.residuals) s calls
    rw [if_pos hdue, if_pos ((Settings.reportDue_succ k).1 hdue)]
    exact ⟨s', hcall⟩
  · rw [if_neg hdue, if_neg fun h => hdue ((Settings.reportDue_succ k).2 h), List.append_nil]
    exact ⟨s, rfl⟩

end NonlinearSolve

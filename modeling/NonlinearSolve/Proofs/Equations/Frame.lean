import NonlinearSolve.Equations.Solve
import NonlinearSolve.Proofs.Course.Iterates
import NonlinearSolve.Proofs.ForwardDifference.Sweep

/-! # What the parts of the hybrid method leave alone

A linearization changes the counts of the iterate and nothing else of it (`Linearize.Recounts`,
proved for both linearizations). Hence the hybrid method moves its iterate only by accepting a step
(`steady_method`) and keeps to its budget (`keepsBudget_method`). Both linearizations leave the
Jacobian that is asked for in the state (`jacobian_analytic`, `jacobian_numerical`). -/

namespace NonlinearSolve

namespace Equations

variable {σ α : Type} [Scalar α] {n : Nat}

/-- A step is accepted if its gain is acceptable. -/
def accepts (nm : Numerics α) : Acceptance (State α n) α n n :=
  fun st t f => (st.gain nm (st.model t.step) (nm.vecNorm f)).acceptable

/-- A linearization that leaves of the iterate all but the counts alone, and takes none of these
back. -/
def Linearize.Recounts (linearize : Linearize σ α n) : Prop :=
  ∀ (st : State α n) (s : σ), st.toIterate.Recounted (linearize st s).2.1.toIterate

section Linearizations

/-- Linearizing with the Jacobian of the problem moves nothing but the counts of the iterate. -/
theorem recounts_analytic (p : JacobianProblem σ α n n) : Linearize.Recounts (analytic p) := by
  intro st s
  rw [analytic]
  rcases p.jacobian st.x s with ⟨e | jac, s'⟩
  · exact .refl _
  · exact ⟨Nat.le_refl _, Nat.le_succ _, rfl⟩

/-- Linearizing by differences moves nothing but the counts of the iterate. -/
theorem recounts_numerical (nm : Numerics α) (c : Config α) (p : Problem σ α n n) :
    Linearize.Recounts (numerical nm c p) := by
  intro st s
  -- the unknowns come back from the sweep as they were
  have hx := ForwardDifference.banded_point p nm (c.bandFor n).1 (c.bandFor n).2 c.epsfcn st.x
    st.residuals st.q s
  rw [numerical]
  simp only
  rcases hsweep : ForwardDifference.banded p nm (c.bandFor n).1 (c.bandFor n).2 c.epsfcn st.x
    st.residuals st.q s with ⟨e | _, x, a, s'⟩
  · rw [hsweep] at hx
    obtain rfl : x = st.x := hx
    exact .refl _
  · rw [hsweep] at hx
    obtain rfl : x = st.x := hx
    exact ⟨Nat.le_add_right _ _, Nat.le_succ _, rfl⟩

end Linearizations

/-! ### Jacobians -/

/-- The Jacobian at a state, or the abort that prevents it. -/
abbrev Jacobian (σ α : Type) [Scalar α] (n : Nat) := State α n → σ → Except Abort (Mat α n n)

/-- The Jacobian of the problem. -/
def analyticJacobian (p : JacobianProblem σ α n n) : Jacobian σ α n :=
  fun st s => (p.jacobian st.x s).1

/-- The matrix of the forward differences, within the band if there is one. -/
def numericalJacobian (nm : Numerics α) (c : Config α) (p : Problem σ α n n) : Jacobian σ α n :=
  fun st s =>
    let (ml, mu) := c.bandFor n
    let out := ForwardDifference.banded p nm ml mu c.epsfcn st.x st.residuals st.q s
    out.1.map fun _ => out.2.2.1

/-- The Jacobian that a linearization leaves in the state. -/
def Linearize.jacobian (linearize : Linearize σ α n) : Jacobian σ α n :=
  fun st s => (linearize st s).1.map fun _ => (linearize st s).2.1.q

/-- The matrix that a linearization with the Jacobian of the problem factors is the answer of the
problem. -/
theorem jacobian_analytic (p : JacobianProblem σ α n n) :
    Linearize.jacobian (analytic p) = analyticJacobian p := by
  funext st s
  rw [Linearize.jacobian, analytic, analyticJacobian]
  rcases p.jacobian st.x s with ⟨e | a, s'⟩ <;> rfl

/-- The matrix that a linearization by differences factors is the matrix of differences. -/
theorem jacobian_numerical (nm : Numerics α) (c : Config α) (p : Problem σ α n n) :
    Linearize.jacobian (numerical nm c p) = numericalJacobian nm c p := by
  funext st s
  rw [Linearize.jacobian, numerical, numericalJacobian]
  simp only
  rcases ForwardDifference.banded p nm (c.bandFor n).1 (c.bandFor n).2 c.epsfcn st.x st.residuals
    st.q s with ⟨e | _, x, a, s'⟩ <;> rfl

/-- The Jacobian that the move after a moment computes, if it completes one: only at the beginning
of a round, and only if there is none that can be updated. -/
def jacobianAt? (jac : Jacobian σ α n) (mo : Moment σ α n (State α n)) : Option (Mat α n n) :=
  match mo.stage with
  | .ready => if mo.state.stale then (jac mo.state mo.world).toOption else none
  | _ => none

/-- No Jacobian is computed as long as the factors are updated. -/
theorem jacobianAt?_of_fresh {jac : Jacobian σ α n} {st : State α n} {s : σ} {b : Vec α n}
    (hfresh : ¬ st.stale = true) : jacobianAt? jac ⟨.ready, st, s, b⟩ = none := if_neg hfresh

/-- If the Jacobian is stale, the next one is what the linearization leaves. -/
theorem jacobianAt?_of_stale {linearize : Linearize σ α n} {st st' : State α n} {s s' : σ}
    {b : Vec α n} {result : Except Abort Unit} (hstale : st.stale = true)
    (hlin : linearize st s = (result, st', s')) :
    jacobianAt? linearize.jacobian ⟨.ready, st, s, b⟩ = result.toOption.map fun _ => st'.q := by
  simp only [jacobianAt?, if_pos hstale, Linearize.jacobian, hlin]
  cases result <;> rfl

/-! ### The parts of the method -/

section Parts

variable (nm : Numerics α) (c : Config α) (st : State α n)

/-- Factoring a Jacobian leaves the position alone. -/
@[simp] theorem position_factorize : (st.factorize nm c).position = st.position :=
  st.toIterate.position_calibrate nm c.toSettings _

/-- Factoring a Jacobian evaluates nothing. -/
@[simp] theorem evaluations_factorize : (st.factorize nm c).evaluations = st.evaluations :=
  st.toIterate.evaluations_calibrate nm c.toSettings _

variable {nm c} {p : Problem σ α n n} {linearize : Linearize σ α n}

/-- Computing the Jacobian anew leaves the position alone and takes no evaluation back. -/
theorem Linearize.Recounts.refresh (hl : linearize.Recounts) (s : σ) :
    (refresh nm c linearize st s).2.1.position = st.position ∧
      st.evaluations ≤ (refresh nm c linearize st s).2.1.evaluations := by
  rw [Equations.refresh]
  split
  · have hrec := hl st s
    rcases hlin : linearize st s with ⟨e | _, st', s'⟩
    · rw [hlin] at hrec
      exact ⟨hrec.position_eq, hrec.evaluations⟩
    · rw [hlin] at hrec
      simp only [position_factorize, evaluations_factorize]
      exact ⟨hrec.position_eq, hrec.evaluations⟩
  · exact ⟨rfl, Nat.le_refl _⟩

/-- The preparation of a round leaves the state alone but for computing the Jacobian anew. -/
theorem prepare_state (s : σ) :
    (prepare nm c p linearize st s).2.1 = (refresh nm c linearize st s).2.1 := by
  rw [prepare]
  rcases refresh nm c linearize st s with ⟨e | _, st', s'⟩
  · rfl
  · simp only
    rcases st'.toIterate.reportIfDue c.toSettings p s' with ⟨e | _, s''⟩ <;> rfl

/-- A round is prepared only if a Jacobian is available. -/
theorem refresh_of_prepare {st : State α n} {s : σ}
    (h : (prepare nm c p linearize st s).1 = none) :
    ∃ s', Equations.refresh nm c linearize st s =
      (.ok (), (prepare nm c p linearize st s).2.1, s') := by
  rw [prepare_state]
  rw [prepare] at h
  rcases hrefresh : Equations.refresh nm c linearize st s with ⟨e | _, st', s'⟩
  · rw [hrefresh] at h
    cases h
  · exact ⟨s', rfl⟩

variable (nm c)

/-- Resizing the trust region leaves the position alone. -/
@[simp] theorem position_resize (g : Gain α) (length : α) :
    (st.resize g length).position = st.position := by
  rw [State.resize]
  split <;> rfl

/-- Resizing the trust region evaluates nothing. -/
@[simp] theorem evaluations_resize (g : Gain α) (length : α) :
    (st.resize g length).evaluations = st.evaluations := by
  rw [State.resize]
  split <;> rfl

/-- The state after a trial step to the proposal `t`, where the residuals are `f`, before the
factorization is updated. -/
def State.after (t : Proposal α n) (f : Vec α n) : State α n :=
  let g := st.gain nm (st.model t.step) (nm.vecNorm f)
  let st' := st.resize g t.length
  let st' :=
    if accepts nm st t f then
      { st' with toIterate := st'.toIterate.accept nm t.point f (nm.vecNorm f) }
    else st'
  st'.track g

/-- The state with which the solve goes on after a trial step. -/
def State.continued (t : Proposal α n) (f : Vec α n) : State α n :=
  if (st.after nm t f).failures = 2 then { st.after nm t f with stale := true }
  else (st.after nm t f).broyden nm t (st.model t.step) f (accepts nm st t f)

/-- A verdict is that of the tests on the state after the step; if they let the solve go on, the
Jacobian is given up or updated. -/
theorem judge_eq (budget : Nat) (t : Proposal α n) (f : Vec α n) :
    st.judge nm c budget t f =
      match (st.after nm t f).stop? nm c budget (accepts nm st t f) t.length with
      | some reason => (some reason, st.after nm t f)
      | none => (none, st.continued nm t f) := by
  -- the state after the step is the one that the verdict computes before its tests
  change (match (st.after nm t f).stop? nm c budget (accepts nm st t f) t.length with
    | some reason => (some reason, st.after nm t f)
    | none =>
      if (st.after nm t f).failures = 2 then (none, { st.after nm t f with stale := true })
      else (none, (st.after nm t f).broyden nm t (st.model t.step) f (accepts nm st t f))) = _
  rcases (st.after nm t f).stop? nm c budget (accepts nm st t f) t.length with _ | reason
  · by_cases hfail : (st.after nm t f).failures = 2
    · simp only [State.continued, if_pos hfail]
    · simp only [State.continued, if_neg hfail]
  · rfl

/-- A trial step moves to the proposed point if it is accepted, and nowhere otherwise. -/
theorem position_after (t : Proposal α n) (f : Vec α n) :
    (st.after nm t f).position =
      if accepts nm st t f then ⟨t.point, f, nm.vecNorm f, st.iteration + 1⟩
      else st.position := by
  have hres := position_resize st (st.gain nm (st.model t.step) (nm.vecNorm f)) t.length
  rw [State.after]
  by_cases hacc : accepts nm st t f
  · rw [if_pos hacc, ← show _ = st.iteration from congrArg Position.iteration hres]
    simp only [if_pos hacc]
    rfl
  · rw [if_neg hacc]
    simp only [if_neg hacc]
    exact hres

/-- Deciding on a step evaluates nothing. -/
theorem evaluations_after (t : Proposal α n) (f : Vec α n) :
    (st.after nm t f).evaluations = st.evaluations := by
  have hres := evaluations_resize st (st.gain nm (st.model t.step) (nm.vecNorm f)) t.length
  rw [State.after]
  by_cases hacc : accepts nm st t f
  · simp only [if_pos hacc]
    exact hres
  · simp only [if_neg hacc]
    exact hres

/-- Deciding on a step leaves the scaling alone. -/
theorem scale_after (t : Proposal α n) (f : Vec α n) :
    (st.after nm t f).scale = st.scale := by
  have hres : ∀ (g : Gain α) (length : α), (st.resize g length).scale = st.scale := by
    intro g length
    rw [State.resize]
    split <;> rfl
  rw [State.after]
  by_cases hacc : accepts nm st t f
  · simp only [if_pos hacc]
    exact hres _ _
  · simp only [if_neg hacc]
    exact hres _ _

/-- Giving up or updating the Jacobian does not concern the iterate. -/
theorem toIterate_continued (t : Proposal α n) (f : Vec α n) :
    (st.continued nm t f).toIterate = (st.after nm t f).toIterate := by
  rw [State.continued]
  split <;> rfl

/-- The iterate after a verdict is that after the step. -/
theorem toIterate_judge (budget : Nat) (t : Proposal α n) (f : Vec α n) :
    (st.judge nm c budget t f).2.toIterate = (st.after nm t f).toIterate := by
  rw [judge_eq]
  split
  · rfl
  · exact toIterate_continued nm st t f

/-- The solve goes on only as long as there is budget left. -/
theorem lt_budget_of_stop? {budget : Nat} {accepted : Bool} {length : α}
    (hgo : st.stop? nm c budget accepted length = none) : st.evaluations < budget := by
  rw [State.stop?] at hgo
  by_contra hle
  -- without budget every branch of the tests has a reason to end
  rw [if_pos (show budget ≤ st.evaluations from Nat.not_lt.1 hle)] at hgo
  repeat' split at hgo
  all_goals cases hgo

end Parts

/-! ### The method -/

section Method

variable {nm : Numerics α} {c : Config α} {budget : Nat} {p : Problem σ α n n}
  {linearize : Linearize σ α n}

/-- The hybrid method moves its iterate only by accepting a step. -/
theorem steady_method (hl : linearize.Recounts) :
    (method nm c budget p linearize).Steady (accepts nm) nm where
  start _ := rfl
  prepare st s := by
    change (prepare nm c p linearize st s).2.1.position = st.position
    rw [prepare_state]
    exact (hl.refresh st s).1
  propose _ := rfl
  judge st t f := by
    change (st.judge nm c budget t f).2.position = _
    rw [toIterate_judge]
    exact position_after nm st t f

/-- The hybrid method keeps to its budget. -/
theorem keepsBudget_method (hl : linearize.Recounts) :
    (method nm c budget p linearize).KeepsBudget budget where
  prepare st s := by
    change st.evaluations ≤ (prepare nm c p linearize st s).2.1.evaluations
    rw [prepare_state]
    exact (hl.refresh st s).2
  propose _ := rfl
  judge st t f := by
    change (st.judge nm c budget t f).2.evaluations = _
    rw [toIterate_judge]
    exact evaluations_after nm st t f
  goOn st t f hgo := by
    change (st.judge nm c budget t f).1 = none at hgo
    rw [judge_eq] at hgo
    change st.evaluations < budget
    rw [← evaluations_after nm st t f]
    rcases hstop : (st.after nm t f).stop? nm c budget (accepts nm st t f) t.length with _ | r
    · exact lt_budget_of_stop? nm c _ hstop
    · rw [hstop] at hgo
      cases hgo

end Method

/-- If the settings have no fault, then neither have those that all methods share. -/
theorem Config.settings_fault? {c : Config α} (hc : c.fault? n = none) :
    c.toSettings.fault? n = none := by
  simp only [Config.fault?, Option.orElse_eq_orElse, Option.orElse_eq_or,
    Option.or_eq_none_iff] at hc
  exact hc.2.2

/-- Settings without fault are settings for at least one unknown. -/
theorem Config.pos_of_fault? {c : Config α} (hc : c.fault? n = none) : 0 < n := by
  simp only [Config.fault?, Option.orElse_eq_orElse, Option.orElse_eq_or,
    Option.or_eq_none_iff] at hc
  refine Nat.pos_of_ne_zero ?_
  intro hzero
  rw [if_pos hzero] at hc
  cases hc.1

/-! ### Solves -/

section Run

variable {nm : Numerics α} {c : Config α} {patience : Nat} {p : Problem σ α n n}
  {linearize : Linearize σ α n} {x : Vec α n} {s : σ}

/-- With proper settings, a solve is one by the method. -/
theorem run_eq (hc : c.fault? n = none) :
    run nm c patience p linearize x s =
      let budget := c.budget patience n
      let sol := (method nm c budget p linearize).run nm c.toSettings budget p x s
      (sol.2.1.report sol.1, sol.2.2) := by
  rw [run, hc]

/-- In every solve of a problem that computes the residuals `f` the iterate is tracked. -/
theorem tracks_run (hl : linearize.Recounts) (hpat : 0 < patience) (hc : c.fault? n = none)
    {f : Vec α n → Vec α n} (hp : p.Computes f) {v : Vec α n} {s₁ : σ}
    (hfirst : p.evaluate x s = (.ok v, s₁)) :
    (method nm c (c.budget patience n) p linearize).Tracks (accepts nm) nm c.toSettings p f x s
      (run nm c patience p linearize x s).1.toSummary := by
  have hpos : 0 < c.budget patience n := Settings.budget_pos (Config.settings_fault? hc) hpat
  simp only [run_eq hc, Method.run_eq]
  exact (steady_method hl).tracks (keepsBudget_method hl) hpos hp hfirst

end Run

end Equations

end NonlinearSolve

import NonlinearSolve.Proofs.Course.Scaling
import NonlinearSolve.Proofs.Equations.Aborts
import NonlinearSolve.Proofs.ForwardDifference.Overwriting

/-! # The scaling of a solve of equations

The hybrid method starts the scaling afresh with every Jacobian that is computed before a step has
been accepted, and not only with the first one. As long as no step is accepted the solve stays at
its starting point, where a Jacobian that is a function of the point (`Linearize.Computes`) is
always the same. So the scaling factors are the largest norms of its columns nevertheless
(`scalesByJacobians_run`). -/

namespace NonlinearSolve

variable {σ : Type} {n : Nat}

/-- Whenever the Jacobian can be computed at all, it is that of the function `jac`. -/
def JacobianProblem.ComputesJacobian (p : JacobianProblem σ ℝ n n) (jac : Vec ℝ n → Mat ℝ n n) :
    Prop :=
  ∀ x s a s', p.jacobian x s = (.ok a, s') → a = jac x

namespace Equations

open Scalar

/-- A linearization that leaves the Jacobian `jac x` at the point `x`, whenever it is completed. It
may rely on the residuals `f x`. -/
def Linearize.Computes (linearize : Linearize σ ℝ n) (f : Vec ℝ n → Vec ℝ n)
    (jac : Vec ℝ n → Mat ℝ n n) : Prop :=
  ∀ (st : State ℝ n) (s : σ), st.residuals = f st.x → (linearize st s).1 = .ok () →
    (linearize st s).2.1.q = jac st.x

section Linearizations

/-- A problem with the Jacobian `jac` is linearized by it. -/
theorem computes_analytic {p : JacobianProblem σ ℝ n n} (f : Vec ℝ n → Vec ℝ n)
    {jac : Vec ℝ n → Mat ℝ n n} (hp : p.ComputesJacobian jac) :
    Linearize.Computes (analytic p) f jac := by
  intro st s _ hok
  rw [analytic] at hok ⊢
  rcases hjac : p.jacobian st.x s with ⟨e | a, s'⟩
  · rw [hjac] at hok
    cases hok
  · exact hp st.x s a s' hjac

/-- Forward differences are a function of the point, too. -/
theorem exists_computes_numerical (nm : Numerics ℝ) (c : Config ℝ) {p : Problem σ ℝ n n}
    {f : Vec ℝ n → Vec ℝ n} (hp : p.Computes f) :
    ∃ jac, Linearize.Computes (numerical nm c p) f jac := by
  obtain ⟨jac, hjac⟩ := ForwardDifference.exists_banded_matrix nm hp (c.bandFor n).1
    (c.bandFor n).2 c.epsfcn
  refine ⟨jac, ?_⟩
  intro st s hres hok
  have hmatrix := hjac st.x st.q s
  rw [← hres] at hmatrix
  rw [numerical] at hok ⊢
  simp only at hok ⊢
  rcases hsweep : ForwardDifference.banded p nm (c.bandFor n).1 (c.bandFor n).2 c.epsfcn st.x
    st.residuals st.q s with ⟨e | _, x, a, s'⟩
  · rw [hsweep] at hok
    cases hok
  · rw [hsweep] at hmatrix
    exact hmatrix rfl

end Linearizations

/-! ### The scaling of a moment -/

/-- At the moment the scaling factors are the largest norms of the columns of the Jacobians so far,
unless the first Jacobian is still to be computed. -/
def Stage.Scaled (jacs : List (Mat ℝ n n)) (st : State ℝ n) : Stage ℝ n → Prop
  | .ready => (st.stale = true ∧ st.iteration = 1 ∧ jacs = []) ∨
      ∀ j, IsLargestNorm jacs j (st.scale j)
  | .ended _ => True
  | _ => ∀ j, IsLargestNorm jacs j (st.scale j)

/-- With the Jacobians `jacs` linearized by so far, the iterations are counted from one on, the
Jacobians of the first one are all the same, and the scaling factors are the largest norms. -/
structure Scaled (jac : Vec ℝ n → Mat ℝ n n) (jacs : List (Mat ℝ n n))
    (mo : Moment σ ℝ n (State ℝ n)) : Prop where
  iteration : 0 < mo.state.iteration
  first : mo.state.iteration = 1 → ∀ b ∈ jacs, b = jac mo.state.x
  scale : Stage.Scaled jacs mo.state mo.stage

section Moves

variable {ε τ : ℝ} {z : Bool} {c : Config ℝ} {budget : Nat} {p : Problem σ ℝ n n}
  {linearize : Linearize σ ℝ n} {f : Vec ℝ n → Vec ℝ n} {jac : Vec ℝ n → Mat ℝ n n}
  {jacs : List (Mat ℝ n n)}

/-- Factoring a Jacobian keeps the scaling factors the largest norms. -/
theorem isLargestNorm_factorize (hc : c.scaling = .jacobian) {st : State ℝ n}
    (hit : (st.iteration = 1 ∧ ∀ b ∈ jacs, b = st.q) ∨
      (st.iteration ≠ 1 ∧ ∀ j, IsLargestNorm jacs j (st.scale j))) (j : Fin n) :
    IsLargestNorm (jacs ++ [st.q]) j ((st.factorize (Numerics.exact ε τ z) c).scale j) :=
  isLargestNorm_rescale hc (colNorm_factor ε τ z false st.q) hit j

/-- The next Jacobian is that of the current point. -/
theorem Linearize.Computes.eq_of_mem (hj : linearize.Computes f jac) {st : State ℝ n} {s : σ}
    {b : Vec ℝ n} (hres : st.residuals = f st.x) {a : Mat ℝ n n}
    (ha : a ∈ (jacobianAt? linearize.jacobian ⟨.ready, st, s, b⟩).toList) : a = jac st.x := by
  have hq := hj st s hres
  by_cases hstale : st.stale = true
  · rcases hlin : linearize st s with ⟨e | _, st', s'⟩
    all_goals rw [jacobianAt?_of_stale hstale hlin] at ha
    · cases ha
    · rw [hlin] at hq
      rw [List.mem_singleton.1 ha]
      exact hq rfl
  · rw [jacobianAt?_of_fresh hstale] at ha
    cases ha

/-- After a preparation the scaling factors are the largest norms, whether it ends the solve or not.
-/
theorem Stage.scaled_ofPreparation {st : State ℝ n}
    (hlargest : ∀ j, IsLargestNorm jacs j (st.scale j)) (reason : Option Termination) :
    Stage.Scaled jacs st (.ofPreparation reason) := by
  cases reason with
  | none => exact hlargest
  | some reason => trivial

variable (ε τ z p) in
/-- The preparation of a round keeps the scaling. -/
theorem Stage.Scaled.prepare (hl : linearize.Recounts) (hj : linearize.Computes f jac)
    (hc : c.scaling = .jacobian) {st : State ℝ n} (s : σ) (b : Vec ℝ n)
    (hres : st.residuals = f st.x) (hfirst : st.iteration = 1 → ∀ a ∈ jacs, a = jac st.x)
    (hscale : Stage.Scaled jacs st .ready) :
    let out := Equations.prepare (Numerics.exact ε τ z) c p linearize st s
    Stage.Scaled (jacs ++ (jacobianAt? linearize.jacobian ⟨.ready, st, s, b⟩).toList) out.2.1
      (.ofPreparation out.1) := by
  intro out
  by_cases hstale : st.stale = true
  · have hrec := hl st s
    have hq := hj st s hres
    rcases hlin : linearize st s with ⟨e | _, st', s'⟩
    · have hend : out.1 = some (.user e) := by
        simp only [out, Equations.prepare, refresh, if_pos hstale, hlin]
      rw [hend]
      trivial
    · have hstate : out.2.1 = st'.factorize (Numerics.exact ε τ z) c := by
        simp only [out, prepare_state, refresh, if_pos hstale, hlin]
      rw [hlin] at hrec hq
      have hjac : st'.q = jac st.x := hq rfl
      have hiter : st'.iteration = st.iteration := congrArg Position.iteration hrec.position_eq
      have hsame : st'.scale = st.scale := by rw [hrec.eq]
      rw [jacobianAt?_of_stale hstale hlin, hstate]
      refine Stage.scaled_ofPreparation (isLargestNorm_factorize hc ?_) out.1
      -- only before the first step is accepted the scaling starts afresh
      rw [hiter, hsame, hjac]
      by_cases hone : st.iteration = 1
      · exact Or.inl ⟨hone, hfirst hone⟩
      · obtain ⟨-, hnew, -⟩ | hlargest := hscale
        · exact absurd hnew hone
        · exact Or.inr ⟨hone, hlargest⟩
  · have hstate : out.2.1 = st := by
      simp only [out, prepare_state, refresh, if_neg hstale]
    rw [jacobianAt?_of_fresh hstale, Option.toList_none, List.append_nil, hstate]
    obtain ⟨hnew, -⟩ | hlargest := hscale
    · exact absurd hnew hstale
    · exact Stage.scaled_ofPreparation hlargest out.1

variable (p) in
/-- The preparation of a round keeps the scaling, also if it computes the Jacobian once more at the
same point. -/
theorem Scaled.ready (hl : linearize.Recounts) (hj : linearize.Computes f jac)
    (hc : c.scaling = .jacobian) {st : State ℝ n} {s : σ} {b : Vec ℝ n}
    (hres : st.residuals = f st.x) (hmo : Scaled jac jacs ⟨.ready, st, s, b⟩) :
    Scaled jac (jacs ++ (jacobianAt? linearize.jacobian ⟨.ready, st, s, b⟩).toList)
      ((method (Numerics.exact ε τ z) c budget p linearize).next
        (accepts (Numerics.exact ε τ z)) p ⟨.ready, st, s, b⟩) := by
  have hpos : (prepare (Numerics.exact ε τ z) c p linearize st s).2.1.position = st.position := by
    rw [prepare_state]
    exact (hl.refresh st s).1
  have hiter := congrArg Position.iteration hpos
  rw [Method.next_ready]
  refine ⟨hmo.iteration.trans_eq hiter.symm, ?_,
    hmo.scale.prepare ε τ z p hl hj hc s b hres hmo.first⟩
  intro hone a ha
  refine Eq.trans ?_ (congrArg jac (congrArg Position.x hpos).symm)
  rcases List.mem_append.1 ha with hold | hnew
  · exact hmo.first (hiter.symm.trans hone) a hold
  · exact hj.eq_of_mem hres hnew

/-- A trial step does not change the scaling, and if it is accepted, another iteration than the
first one begins. -/
theorem Scaled.judge {nm : Numerics ℝ} {st : State ℝ n} {t : Proposal ℝ n} {s s' : σ}
    {b b' : Vec ℝ n} (hmo : Scaled jac jacs ⟨.proposed t, st, s, b⟩) (v : Vec ℝ n) :
    Scaled jac jacs ⟨.ofVerdict (st.judge nm c budget t v).1, (st.judge nm c budget t v).2, s',
      b'⟩ := by
  have hiter : 0 < st.iteration := hmo.iteration
  have hstate := toIterate_judge nm c st budget t v
  have hpos : (st.judge nm c budget t v).2.position =
      if accepts nm st t v then ⟨t.point, v, nm.vecNorm v, st.iteration + 1⟩ else st.position :=
    (congrArg Iterate.position hstate).trans (position_after nm st t v)
  have hlargest : ∀ j, IsLargestNorm jacs j ((st.judge nm c budget t v).2.scale j) := by
    rw [hstate, scale_after]
    exact hmo.scale
  have hscale : Stage.Scaled jacs (st.judge nm c budget t v).2
      (.ofVerdict (st.judge nm c budget t v).1) := by
    cases (st.judge nm c budget t v).1 with
    | none => exact Or.inr hlargest
    | some reason => trivial
  by_cases hacc : accepts nm st t v = true
  · rw [if_pos hacc] at hpos
    have hlater : (st.judge nm c budget t v).2.iteration = st.iteration + 1 :=
      congrArg Position.iteration hpos
    refine ⟨hlater ▸ Nat.succ_pos st.iteration, ?_, hscale⟩
    intro (hone : (st.judge nm c budget t v).2.iteration = 1)
    omega
  · rw [if_neg hacc] at hpos
    refine ⟨hiter.trans_eq (congrArg Position.iteration hpos).symm, ?_, hscale⟩
    intro hone
    have hx : (st.judge nm c budget t v).2.x = st.x := congrArg Position.x hpos
    rw [hx]
    exact hmo.first ((congrArg Position.iteration hpos).symm.trans hone)

/-- Every move keeps the scaling. -/
theorem Scaled.next (hl : linearize.Recounts) (hj : linearize.Computes f jac)
    (hc : c.scaling = .jacobian) {mo : Moment σ ℝ n (State ℝ n)}
    (hres : mo.state.residuals = f mo.state.x) (hmo : Scaled jac jacs mo) :
    Scaled jac (jacs ++ (jacobianAt? linearize.jacobian mo).toList)
      ((method (Numerics.exact ε τ z) c budget p linearize).next
        (accepts (Numerics.exact ε τ z)) p mo) := by
  obtain ⟨stage, st, s, b⟩ := mo
  cases stage with
  | ready => exact hmo.ready p hl hj hc hres
  | prepared =>
    rw [jacobianAt?, Option.toList_none, List.append_nil]
    exact ⟨hmo.iteration, hmo.first, hmo.scale⟩
  | proposed t =>
    rw [jacobianAt?, Option.toList_none, List.append_nil]
    rcases heval : p.evaluate t.point s with ⟨e | v, s'⟩
    · rw [Method.next_proposed_of_error heval]
      exact ⟨hmo.iteration, hmo.first, trivial⟩
    · rw [Method.next_proposed_of_ok heval]
      exact hmo.judge v
  | ended reason =>
    rw [jacobianAt?, Option.toList_none, List.append_nil]
    exact hmo

end Moves

/-! ### Solves -/

section Run

variable {ε τ : ℝ} {z : Bool} {c : Config ℝ} {patience : Nat} {p : Problem σ ℝ n n}
  {linearize : Linearize σ ℝ n} {f : Vec ℝ n → Vec ℝ n} {jac : Vec ℝ n → Mat ℝ n n}

/-- Before anything is linearized the first Jacobian is to be computed, if the solve goes on at
all. -/
theorem scaled_opening (nm : Numerics ℝ) (budget : Nat) (x : Vec ℝ n) (s : σ) :
    Scaled jac [] ((method nm c budget p linearize).opening nm c.toSettings p x s) := by
  rw [Method.opening, Iterate.evaluate]
  simp only
  rcases p.evaluate (Iterate.start (m := n) c.toSettings x).x s with ⟨e | v, s'⟩
  · exact ⟨Nat.one_pos, fun _ a ha => absurd ha List.not_mem_nil, trivial⟩
  · refine ⟨Nat.one_pos, fun _ a ha => absurd ha List.not_mem_nil, ?_⟩
    simp only
    split
    · trivial
    · exact Or.inl ⟨rfl, rfl, rfl⟩

variable (ε τ z) in
/-- With a first evaluation that succeeds, every moment has its scaling. -/
theorem scaled_course (hl : linearize.Recounts) (hj : linearize.Computes f jac)
    (hc : c.scaling = .jacobian) (hp : p.Computes f) {x v : Vec ℝ n} {s s₁ : σ}
    (hfirst : p.evaluate x s = (.ok v, s₁)) (budget k : Nat) :
    let moments := (method (Numerics.exact ε τ z) c budget p linearize).course
      (accepts (Numerics.exact ε τ z)) (Numerics.exact ε τ z) c.toSettings p x s
    Scaled jac (linearized (jacobianAt? linearize.jacobian) moments k) (moments k) := by
  intro moments
  have hme : (method (Numerics.exact ε τ z) c budget p linearize).Steady
      (accepts (Numerics.exact ε τ z)) (Numerics.exact ε τ z) := steady_method hl
  induction k with
  | zero => exact scaled_opening _ _ x s
  | succ k ih =>
    -- the residuals are those at the point, so the Jacobian is that of the point, too
    obtain ⟨hx, hres, -⟩ := Method.course_induction (hme.atBase_opening hp hfirst)
      (fun _ => hme.atBase_next hp) k
    rw [linearized, show moments (k + 1) = _ from Method.course_succ k]
    exact ih.next hl hj hc (hres.trans (congrArg f hx.symm))

/-- A solve of equations scales by its Jacobians. -/
theorem scalesByJacobians_run (hl : linearize.Recounts) (hj : linearize.Computes f jac)
    (hpat : 0 < patience) (hc : c.scaling = .jacobian) (hp : p.Computes f) (x : Vec ℝ n) (s : σ) :
    ScalesByJacobians (jacobianAt? linearize.jacobian) State.toIterate
      (course (Numerics.exact ε τ z) c patience p linearize x s)
      (run (Numerics.exact ε τ z) c patience p linearize x s).1.toSummary := by
  obtain ⟨k₀, hend⟩ := exists_course_report (Numerics.exact ε τ z) c p x s hl hpat
  obtain ⟨hstage, hreport⟩ := hend k₀ (Nat.le_refl k₀)
  refine .of_largest ?_ ⟨k₀, hstage, congrArg Report.toSummary hreport⟩
  intro k t j hk
  rcases hfault : c.fault? n with _ | e
  · rw [course_eq hfault] at hk ⊢
    rcases hfirst : p.evaluate x s with ⟨e | v, s₁⟩
    · -- the solve has ended before the first step
      have heval : p.evaluate (Iterate.start (m := n) c.toSettings x).x s = (.error e, s₁) :=
        hfirst
      have hend : ((method (Numerics.exact ε τ z) c (c.budget patience n) p linearize).course
          (accepts (Numerics.exact ε τ z)) (Numerics.exact ε τ z) c.toSettings p x s 0).stage =
            .ended (.user e) := by
        simp only [Method.course_zero, Method.opening, Iterate.evaluate, heval, Stage.ofVerdict]
      rw [Method.course_eq_of_stage (Nat.zero_le k) hend, hend] at hk
      cases hk
    · have hscale := (scaled_course ε τ z hl hj hc hp hfirst (c.budget patience n) k).scale
      rw [hk] at hscale
      exact hscale j
  · rw [course, hfault] at hk
    cases hk

end Run

end Equations

end NonlinearSolve

import NonlinearSolve.Proofs.Checked.Linearization
import NonlinearSolve.Proofs.Checked.Trial
import NonlinearSolve.Proofs.Course.Checked
import NonlinearSolve.Proofs.LeastSquares.Soundness

/-! # Checked minimization

The three minimizations written with checked operations from the linearization to the verdict. At
every sound moment the checked method does what the method does (`agrees_method`), so the checked
minimization comes to the same report (`wellDefined_run`). -/

namespace NonlinearSolve

namespace LeastSquares

/-! ### Algorithms -/

section Algorithms

variable {σ α : Type} [Scalar α] {m r n : Nat}

/-- `prepare` with checked operations. -/
def prepare? (nm : Numerics α) (c : Config α) (h : n ≤ r) (p : Problem σ α m n)
    (linearize? : Linearize? σ α m r n) (st : State α m r n) (s : σ) :
    Option (Option Termination × State α m r n × σ) :=
  if st.fresh then
    match st.toIterate.reportIfDue c.toSettings p s with
    | (.error e, s) => some (some (.user e), st, s)
    | (.ok _, s) => do
      match ← linearize? st s with
      | (.error e, st, s) => return (some (.user e), st, s)
      | (.ok norms, st, s) =>
        let (reason, st) ← st.adapt? nm c h norms
        return (reason, st, s)
  else some (none, st, s)

/-- `method` with checked operations. -/
def checkedMethod (nm : Numerics α) (c : Config α) (budget : Nat) (h : n ≤ r) (p : Problem σ α m n)
    (linearize? : Linearize? σ α m r n) : CheckedMethod σ α m n (State α m r n) where
  start := .ofIterate
  iterate := State.toIterate
  prepare? := prepare? nm c h p linearize?
  propose? := State.propose? nm h
  judge? := State.judge? nm c budget h

/-- `run` with checked operations. -/
def run? (nm : Numerics α) (c : Config α) (patience : Nat) (p : Problem σ α m n)
    (rows : n ≤ m → n ≤ r) (linearize? : n ≤ m → Linearize? σ α m r n) (x : Vec α n) (s : σ) :
    Option (Report α m r n × σ) :=
  if h : n ≤ m then
    match c.fault? n with
    | some e => some (reject c x e, s)
    | none => do
      let budget := c.budget patience n
      let me := checkedMethod nm c budget (rows h) p (linearize? h)
      let (reason, st, s) ← me.run? nm c.toSettings budget p x s
      return (st.report reason, s)
  else some (reject c x (.notEnoughResiduals m n), s)

/-- `minimize` with checked operations. -/
def minimize? (nm : Numerics α) (c : Config α) (p : JacobianProblem σ α m n) (x : Vec α n)
    (s : σ) : Option (Report α m m n × σ) :=
  run? nm c 100 p.toProblem (fun h => h) (fun h => analytic? nm h p) x s

/-- `minimizeNumerically` with checked operations. -/
def minimizeNumerically? (nm : Numerics α) (c : Config α) (p : Problem σ α m n) (x : Vec α n)
    (s : σ) : Option (Report α m m n × σ) :=
  run? nm c 200 p (fun h => h) (fun h => numerical? nm h c.toSettings p) x s

/-- `minimizeRowwise` with checked operations. -/
def minimizeRowwise? (nm : Numerics α) (c : Config α) (p : RowProblem σ α m n) (x : Vec α n)
    (s : σ) : Option (Report α m n n × σ) :=
  run? nm c 100 p.toProblem (fun _ => Nat.le_refl n) (fun _ => rowwise? nm p) x s

end Algorithms

/-! ### Agreement -/

variable {σ : Type} {m r n : Nat} {ε τ : ℝ} {z : Bool} {c : Config ℝ} {p : Problem σ ℝ m n}

/-- Preparing an iteration is checked when its linearization is. -/
theorem prepare?_eq {nm : Numerics ℝ} {h : n ≤ r} {linearize? : Linearize? σ ℝ m r n}
    {linearize : Linearize σ ℝ m r n} (hagree : linearize?.Agrees linearize)
    (st : State ℝ m r n) (s : σ) :
    prepare? nm c h p linearize? st s = some (prepare nm c h p linearize st s) := by
  unfold prepare? prepare
  by_cases hfresh : st.fresh = true
  · simp only [if_pos hfresh]
    rcases st.toIterate.reportIfDue c.toSettings p s with ⟨e | _, s'⟩
    · rfl
    · simp only [hagree st s', Option.bind_eq_bind, Option.bind_some]
      rcases linearize st s' with ⟨e | norms, st', s''⟩
      · rfl
      · simp only [State.adapt?_eq, Option.bind_some, Option.pure_def]
  · rw [if_neg hfresh, if_neg hfresh]

/-- The minimization with a checked linearization agrees with the method that runs, in every sound
moment. -/
theorem agrees_method (hτ : 0 < τ) {budget : Nat} {h : n ≤ r} {linearize? : Linearize? σ ℝ m r n}
    {linearize : Linearize σ ℝ m r n} (hagree : linearize?.Agrees linearize) :
    (checkedMethod (Numerics.exact ε τ z) c budget h p linearize?).Agrees
      (method (Numerics.exact ε τ z) c budget h p linearize) (SoundAt h) where
  start := rfl
  iterate := rfl
  prepare st s _ _ := prepare?_eq hagree st s
  propose _ _ _ hst := by
    obtain ⟨eqs, hposed⟩ := hst.posed
    exact State.propose?_eq hposed hτ
  judge t st _ _ hst f := by
    obtain ⟨hsound, -⟩ := hst
    exact State.judge?_eq _ c budget h hsound.residualNorm_pos.ne' hsound.damping_nonneg t f

/-! ### Solves -/

/-- A state in which a step begins as it has to: the residuals are not zero, the trust region is not
a point, and neither is the damping negative nor any scaling factor without effect. -/
structure State.BeginsStep (st : State ℝ m r n) : Prop where
  residualNorm_pos : 0 < st.residualNorm
  radius_pos : 0 < st.radius
  damping_nonneg : 0 ≤ st.damping
  scale_pos (j : Fin n) : 0 < st.scale j

/-- A sound state has what a step begins with. -/
theorem State.Sound.beginsStep {h : n ≤ r} {st : State ℝ m r n} (hst : st.Sound h) :
    st.BeginsStep := by
  obtain ⟨eqs, hposed⟩ := hst.posed
  exact ⟨hst.residualNorm_pos, hposed.radius_pos, hst.damping_nonneg, hposed.scale_pos⟩

/-- A minimization is well defined: every step begins as it has to, and the same minimization with
checked operations does not fail, so that no operation of it is undefined. -/
structure WellDefined (course : Nat → Moment σ ℝ n (State ℝ m r n))
    (checked : Option (Report ℝ m r n × σ)) (outcome : Report ℝ m r n × σ) : Prop where
  steps (k : Nat) : (course k).stage = .prepared → (course k).state.BeginsStep
  checked : checked = some outcome

/-- Every minimization is well defined, whatever the input is. -/
theorem wellDefined_run (hτ : 0 < τ) (c : Config ℝ) {patience : Nat} (rows : n ≤ m → n ≤ r)
    {linearize? : n ≤ m → Linearize? σ ℝ m r n} {linearize : n ≤ m → Linearize σ ℝ m r n}
    (hagree : ∀ h, (linearize? h).Agrees (linearize h)) (hl : ∀ h, (linearize h).Recounts)
    (ht : ∀ h, (linearize h).Tapers (rows h)) {jac : Jacobian σ ℝ m r n}
    (hf : ∀ h, (linearize h).Factors (rows h) jac) (x : Vec ℝ n) (s : σ) :
    WellDefined (course (Numerics.exact ε τ z) c patience p rows linearize x s)
      (run? (Numerics.exact ε τ z) c patience p rows linearize? x s)
      (run (Numerics.exact ε τ z) c patience p rows linearize x s) := by
  unfold course run? run
  by_cases h : n ≤ m
  · rcases hc : c.fault? n with _ | e
    · set nm := Numerics.exact ε τ z
      set me := method nm c (c.budget patience n) (rows h) p (linearize h)
      have hopening : SoundAt (rows h) (me.opening nm c.toSettings p x s) := soundAt_opening hc x s
      have hnext : ∀ mo, SoundAt (rows h) mo →
          SoundAt (rows h) (me.next (accepts nm (rows h)) p mo) :=
        soundAt_next hc hτ (hl h) (ht h) (hf h)
      simp only [dif_pos h]
      constructor
      · intro k hstage
        have hsound := Method.course_induction hopening hnext k
        unfold SoundAt at hsound
        rw [hstage] at hsound
        exact hsound.beginsStep
      · rw [(agrees_method hτ (hagree h)).run?_eq hnext _ _ _ x s hopening]
        rfl
    · -- an input that is rejected is not worked on
      simp only [dif_pos h]
      exact ⟨fun k hstage => (by cases hstage), rfl⟩
  · simp only [dif_neg h]
    exact ⟨fun k hstage => (by cases hstage), rfl⟩

end LeastSquares

end NonlinearSolve

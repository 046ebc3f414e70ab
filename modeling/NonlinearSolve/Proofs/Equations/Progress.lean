import NonlinearSolve.Proofs.Equations.Accounts

/-! # The record of progress

The hybrid method keeps a record of its progress: how many poor steps there were in a row, how many
steps since the last fair reduction, how many Jacobians since the last good one. From it the method
decides when the Jacobian is computed anew and when the solve has stalled. The tests for this ask
whether a count equals a certain number, so they would never apply again if that number were missed.

Here the deeds of a solve are written down as they come (`history`), and the counts are defined a
second time, as counts of deeds. At every moment the record agrees with the history
(`Remembers.next`, `remembers_course`), and the history is a legal one (`History.Legal`): whatever
is true of all of these, as the distance of the Jacobians from each other (`History.Legal.spaced`),
holds for every solve (`watchesProgress_run`). -/

namespace NonlinearSolve

namespace Equations

/-! ### Histories -/

/-- A deed of a solve that its record of progress is about. -/
inductive Deed (α : Type) where
  /-- The Jacobian is computed or approximated, or at least this is attempted. -/
  | jacobian
  /-- A trial step turns out to have the gain `g`. If `first` is set, it is taken for the first one
  with its Jacobian. -/
  | trial (g : Gain α) (first : Bool)

/-- The deeds of a solve up to some moment, the latest first. -/
abbrev History (α : Type) := List (Deed α)

namespace Deed

variable {α : Type}

/-- Whether this is a trial step. -/
def isTrial : Deed α → Bool
  | jacobian => false
  | trial _ _ => true

/-- Whether this is a trial step that is taken for the first one with its Jacobian. -/
def isFirst : Deed α → Bool
  | jacobian => false
  | trial _ first => first

/-- Whether this is no trial step, or one whose gain has the property `P`. -/
def meets (P : Gain α → Bool) : Deed α → Bool
  | jacobian => true
  | trial g _ => P g

end Deed

namespace History

variable {α : Type}

/-- The number of trial steps. -/
def trials (h : History α) : Nat := h.countP Deed.isTrial

/-- The number of Jacobians. -/
def jacobians (h : History α) : Nat := h.countP fun d => !d.isTrial

/-- The number of trial steps since the last Jacobian. -/
def sinceJacobian (h : History α) : Nat := (h.takeWhile Deed.isTrial).length

section Counts

variable (g : Gain α) (first : Bool) (h : History α)

/-- Nothing has been tried at first. -/
@[simp] theorem trials_nil : trials ([] : History α) = 0 := rfl

/-- A Jacobian is no trial step. -/
@[simp] theorem trials_jacobian : trials (.jacobian :: h) = trials h :=
  List.countP_cons_of_neg Bool.false_ne_true

/-- A trial step is counted whatever its gain is. -/
@[simp] theorem trials_trial : trials (.trial g first :: h) = trials h + 1 :=
  List.countP_cons_of_pos rfl

/-- There is no Jacobian at first. -/
@[simp] theorem jacobians_nil : jacobians ([] : History α) = 0 := rfl

/-- Every Jacobian is counted. -/
@[simp] theorem jacobians_jacobian : jacobians (.jacobian :: h) = jacobians h + 1 :=
  List.countP_cons_of_pos rfl

/-- A trial step is no Jacobian. -/
@[simp] theorem jacobians_trial : jacobians (.trial g first :: h) = jacobians h :=
  List.countP_cons_of_neg Bool.false_ne_true

/-- A Jacobian starts the count of its trial steps. -/
@[simp] theorem sinceJacobian_jacobian : sinceJacobian (.jacobian :: h) = 0 := rfl

/-- A trial step belongs to the last Jacobian. -/
@[simp] theorem sinceJacobian_trial :
    sinceJacobian (.trial g first :: h) = sinceJacobian h + 1 := rfl

/-- The trial steps since the last Jacobian are among all trial steps. -/
theorem sinceJacobian_le_trials : sinceJacobian h ≤ trials h := by
  induction h with
  | nil => exact Nat.le_refl _
  | cons d h ih =>
    cases d with
    | jacobian => exact Nat.zero_le _
    | trial g first =>
      rw [sinceJacobian_trial, trials_trial]
      exact Nat.succ_le_succ ih

/-- The Jacobians of two parts of a history add up. -/
theorem jacobians_append (later h : History α) :
    jacobians (later ++ h) = jacobians later + jacobians h := List.countP_append

/-- The trial steps since a Jacobian come after it. -/
theorem sinceJacobian_append_le (later h : History α) :
    sinceJacobian (later ++ .jacobian :: h) ≤ trials later := by
  induction later with
  | nil => exact Nat.le_refl _
  | cons d later ih =>
    cases d with
    | jacobian => exact Nat.zero_le _
    | trial g first =>
      rw [List.cons_append, sinceJacobian_trial, trials_trial]
      exact Nat.succ_le_succ ih

end Counts

/-- The deeds since the last trial step whose gain does not have the property `P`. That step itself
is not among them. -/
def since (P : Gain α → Bool) (h : History α) : History α := h.takeWhile (Deed.meets P)

section Since

variable (P : Gain α → Bool) (h : History α)

/-- There is nothing to look back at. -/
@[simp] theorem since_nil : since P ([] : History α) = [] := rfl

/-- Looking back passes over a Jacobian. -/
@[simp] theorem since_jacobian : since P (.jacobian :: h) = .jacobian :: since P h := rfl

/-- Looking back ends at the first trial step without the property. -/
theorem since_trial (g : Gain α) (first : Bool) :
    since P (.trial g first :: h) = if P g then .trial g first :: since P h else [] :=
  List.takeWhile_cons

end Since

variable [Scalar α]

/-- The number of trial steps since the last one that was not poor. -/
def failures (h : History α) : Nat := trials (h.since fun g => g.ratio < 0.1)

/-- The number of trial steps since the last fair reduction. -/
def slowSteps (h : History α) : Nat := trials (h.since fun g => ¬ 0.001 ≤ g.actual)

/-- The number of Jacobians that were tried since the last good reduction. -/
def slowJacobians (h : History α) : Nat :=
  (h.since fun g => ¬ 0.1 ≤ g.actual).countP Deed.isFirst

section Record

variable (g : Gain α) (first : Bool) (h : History α)

/-- A new Jacobian does not end a series of poor steps. -/
@[simp] theorem failures_jacobian : failures (.jacobian :: h) = failures h := by
  simp only [failures, since_jacobian, trials_jacobian]

/-- A poor step counts as one more, and any other one ends the series. -/
theorem failures_trial :
    failures (.trial g first :: h) = if g.ratio < 0.1 then failures h + 1 else 0 := by
  simp only [failures, since_trial, decide_eq_true_eq]
  split
  · exact trials_trial g first _
  · rfl

/-- A new Jacobian does not end a series of slow steps. -/
@[simp] theorem slowSteps_jacobian : slowSteps (.jacobian :: h) = slowSteps h := by
  simp only [slowSteps, since_jacobian, trials_jacobian]

/-- A slow step counts as one more, and a fair reduction ends the series. -/
theorem slowSteps_trial :
    slowSteps (.trial g first :: h) = if 0.001 ≤ g.actual then 0 else slowSteps h + 1 := by
  simp only [slowSteps, since_trial, decide_eq_true_eq, ite_not]
  split
  · rfl
  · exact trials_trial g first _

/-- A new Jacobian counts as slow only after its first step. -/
@[simp] theorem slowJacobians_jacobian : slowJacobians (.jacobian :: h) = slowJacobians h := by
  simp only [slowJacobians, since_jacobian]
  exact List.countP_cons_of_neg Bool.false_ne_true

/-- The first step after a Jacobian counts that Jacobian if it is slow, and a good reduction ends
the series. -/
theorem slowJacobians_trial :
    slowJacobians (.trial g first :: h) =
      if 0.1 ≤ g.actual then 0
      else if first then slowJacobians h + 1 else slowJacobians h := by
  simp only [slowJacobians, since_trial, decide_eq_true_eq, ite_not]
  by_cases hgood : 0.1 ≤ g.actual
  · rw [if_pos hgood, if_pos hgood]
    rfl
  · rw [if_neg hgood, if_neg hgood]
    cases first with
    | false => exact List.countP_cons_of_neg Bool.false_ne_true
    | true => exact List.countP_cons_of_pos rfl

variable {g first h}

/-- A step adds at most one to the count, so a number that is tested for is not skipped. -/
theorem slowSteps_trial_lt {k : Nat} (hlt : slowSteps h < k)
    (hne : slowSteps (.trial g first :: h) ≠ k) : slowSteps (.trial g first :: h) < k := by
  have hle : slowSteps (.trial g first :: h) ≤ slowSteps h + 1 := by
    rw [slowSteps_trial]
    split
    · exact Nat.zero_le _
    · exact Nat.le_refl _
  omega

/-- A count that does not reach the limit by a trial step stays below it. -/
theorem slowJacobians_trial_lt {k : Nat} (hlt : slowJacobians h < k)
    (hne : slowJacobians (.trial g first :: h) ≠ k) : slowJacobians (.trial g first :: h) < k := by
  have hle : slowJacobians (.trial g first :: h) ≤ slowJacobians h + 1 := by
    rw [slowJacobians_trial]
    split
    · exact Nat.zero_le _
    · split
      · exact Nat.le_refl _
      · exact Nat.le_succ _
  omega

end Record

/-! ### Legal histories -/

/-- The histories that a solve may have. It begins with a Jacobian; a trial step is taken for the
first one exactly if it follows a Jacobian; and a Jacobian is computed again only after a second
poor trial step in a row. -/
inductive Legal : History α → Prop where
  | nil : Legal []
  | first : Legal [.jacobian]
  | trial {h : History α} (g : Gain α) {first : Bool} : Legal h → h ≠ [] →
      (first = true ↔ ∃ older, h = .jacobian :: older) → Legal (.trial g first :: h)
  | again {h : History α} {g : Gain α} {first : Bool} : Legal (.trial g first :: h) →
      failures (.trial g first :: h) = 2 → Legal (.jacobian :: .trial g first :: h)

/-- How the Jacobians lie in a history that is not empty. Before the second one, all poor steps in a
row came after the first one. Afterwards the two poor steps before the last Jacobian still count,
unless there has been a better step since then. -/
structure Spaced (h : History α) : Prop where
  jacobians_pos : 1 ≤ h.jacobians
  bound : 3 * (h.jacobians - 1) + h.sinceJacobian ≤ h.trials + 1
  early : h.jacobians = 1 → h.failures ≤ h.sinceJacobian
  late : 2 ≤ h.jacobians → 2 + h.sinceJacobian ≤ h.failures ∨ h.failures < h.sinceJacobian

/-- After a trial step and two failures there are enough steps since the last Jacobian. -/
theorem Spaced.le_sinceJacobian {g : Gain α} {first : Bool} {h : History α}
    (hs : Spaced (.trial g first :: h)) (hfail : failures (.trial g first :: h) = 2) :
    2 ≤ sinceJacobian (.trial g first :: h) ∧
      (2 ≤ jacobians (.trial g first :: h) → 3 ≤ sinceJacobian (.trial g first :: h)) := by
  have hpos := hs.jacobians_pos
  have hearly := hs.early
  have hlate := hs.late
  rw [hfail] at hearly hlate
  rw [sinceJacobian_trial] at hearly hlate ⊢
  omega

/-- In a legal history the Jacobians are spaced. -/
theorem Legal.spaced {h : History α} (hl : h.Legal) (hne : h ≠ []) : h.Spaced := by
  induction hl with
  | nil => exact absurd rfl hne
  | first =>
    exact ⟨Nat.le_refl _, Nat.zero_le _, fun _ => Nat.zero_le _, fun htwo =>
      absurd htwo (Nat.not_succ_le_self 1)⟩
  | @trial h g first _ hne' _ ih =>
    obtain ⟨hpos, hbound, hearly, hlate⟩ := ih hne'
    have hfail : failures (.trial g first :: h) = failures h + 1 ∨
        failures (.trial g first :: h) = 0 := by
      rw [failures_trial]
      split
      · exact Or.inl rfl
      · exact Or.inr rfl
    refine ⟨?_, ?_, ?_, ?_⟩
    all_goals
      simp only [jacobians_trial, trials_trial, sinceJacobian_trial] at hfail ⊢
      omega
  | @again h g first _ hfail ih =>
    have hs := ih (List.cons_ne_nil _ _)
    have hbound := hs.bound
    have hpos := hs.jacobians_pos
    have hle := sinceJacobian_le_trials (Deed.trial g first :: h)
    have hsteps := hs.le_sinceJacobian hfail
    refine ⟨?_, ?_, ?_, ?_⟩
    all_goals
      simp only [jacobians_jacobian, trials_jacobian, sinceJacobian_jacobian, failures_jacobian]
      omega

/-- A history with few trial steps has few Jacobians. -/
theorem Legal.three_mul_le {h : History α} (hl : h.Legal) {k : Nat} (hk : k ≤ h.jacobians) :
    3 * (k - 1) ≤ h.trials + 1 := by
  rcases h with _ | ⟨d, h⟩
  · rw [jacobians_nil] at hk
    omega
  · have hbound := (hl.spaced (List.cons_ne_nil d h)).bound
    omega

/-- The past of a legal history is legal. -/
theorem Legal.of_cons {d : Deed α} {h : History α} (hl : Legal (d :: h)) : h.Legal := by
  cases hl with
  | first => exact .nil
  | trial _ hl' _ _ => exact hl'
  | again hl' _ => exact hl'

/-- What comes before in a legal history is a legal history. -/
theorem Legal.of_append {later h : History α} (hl : Legal (later ++ h)) : h.Legal := by
  induction later with
  | nil => exact hl
  | cons d later ih => exact ih hl.of_cons

/-- A Jacobian that is not the first one comes right after two poor trial steps. -/
theorem Legal.after_failures {before : History α} (hl : Legal (.jacobian :: before))
    (hne : before ≠ []) :
    ∃ g₁ first₁ g₂ first₂ older, before = .trial g₂ first₂ :: .trial g₁ first₁ :: older ∧
      g₁.ratio < 0.1 ∧ g₂.ratio < 0.1 := by
  cases hl with
  | first => exact absurd rfl hne
  | @again h g₂ first₂ hl hfail =>
    -- the step before the last one follows no Jacobian, since there are two steps since that one
    have hsteps := ((hl.spaced hne).le_sinceJacobian hfail).1
    rcases h with _ | ⟨_ | ⟨g₁, first₁⟩, older⟩
    · exact absurd hsteps (Nat.not_succ_le_self 1)
    · exact absurd hsteps (Nat.not_succ_le_self 1)
    · refine ⟨g₁, first₁, g₂, first₂, older, rfl, ?_, ?_⟩
      all_goals
        by_contra hfair
        simp [failures_trial, hfair] at hfail
      split at hfail <;> simp at hfail

/-- Between two Jacobians none of which is the first one there are three trial steps. -/
theorem Legal.apart {between before : History α}
    (hl : Legal (.jacobian :: (between ++ .jacobian :: before))) (hne : before ≠ []) :
    3 ≤ between.trials := by
  have hpos : 1 ≤ before.jacobians := (hl.of_cons.of_append.of_cons.spaced hne).jacobians_pos
  have hle := sinceJacobian_append_le between before
  generalize hlast : between ++ .jacobian :: before = last at hl hle
  have htwo : 2 ≤ last.jacobians := by
    rw [← hlast, jacobians_append, jacobians_jacobian]
    omega
  cases hl with
  | first => simp at htwo
  | again hl hfail =>
    have hthree := ((hl.spaced (List.cons_ne_nil _ _)).le_sinceJacobian hfail).2 htwo
    exact hthree.trans hle

end History

/-! ### The record in a state -/

/-- The record of progress in a state. -/
structure Record where
  /-- How many poor steps have been made in a row. -/
  failures : Nat
  /-- How many steps have been made since the last fair reduction. -/
  slowSteps : Nat
  /-- How many Jacobians have been tried since the last good reduction. -/
  slowJacobians : Nat
  /-- Whether the next step is taken for the first one with its Jacobian. -/
  firstStep : Bool
  /-- Whether the Jacobian has to be computed before the next step. -/
  stale : Bool

variable {σ α : Type} [Scalar α] {n : Nat}

/-- The record of progress in a state. -/
def State.record (st : State α n) : Record :=
  ⟨st.failures, st.slowSteps, st.slowJacobians, st.firstStep, st.stale⟩

/-- The record after a trial step with the gain `g`. -/
def Record.tried (r : Record) (g : Gain α) : Record where
  failures := if g.ratio < 0.1 then r.failures + 1 else 0
  slowSteps := if 0.001 ≤ g.actual then 0 else r.slowSteps + 1
  slowJacobians :=
    if 0.1 ≤ g.actual then 0
    else if r.firstStep then r.slowJacobians + 1 else r.slowJacobians
  firstStep := r.firstStep
  stale := r.stale

/-- A linearization that leaves the record of progress alone and counts for at most one Jacobian. -/
structure Linearize.KeepsRecord (linearize : Linearize σ α n) : Prop where
  record (st : State α n) (s : σ) : (linearize st s).2.1.record = st.record
  jacobians (st : State α n) (s : σ) : (linearize st s).2.1.jacobians ≤ st.jacobians + 1

/-- Linearizing with the Jacobian of the problem keeps the record of progress. -/
theorem keepsRecord_analytic (p : JacobianProblem σ α n n) :
    Linearize.KeepsRecord (analytic p) where
  record st s := by
    rw [analytic]
    rcases p.jacobian st.x s with ⟨e | jac, s'⟩ <;> rfl
  jacobians st s := by
    rw [analytic]
    rcases p.jacobian st.x s with ⟨e | jac, s'⟩
    · exact Nat.le_succ _
    · exact Nat.le_refl _

/-- Linearizing by differences keeps the record of progress. -/
theorem keepsRecord_numerical (nm : Numerics α) (c : Config α) (p : Problem σ α n n) :
    Linearize.KeepsRecord (numerical nm c p) where
  record st s := by
    rw [numerical]
    simp only
    rcases ForwardDifference.banded p nm (c.bandFor n).1 (c.bandFor n).2 c.epsfcn st.x
      st.residuals st.q s with ⟨e | _, x, a, s'⟩ <;> rfl
  jacobians st s := by
    rw [numerical]
    simp only
    rcases ForwardDifference.banded p nm (c.bandFor n).1 (c.bandFor n).2 c.epsfcn st.x
      st.residuals st.q s with ⟨e | _, x, a, s'⟩
    · exact Nat.le_succ _
    · exact Nat.le_refl _

section Parts

variable (nm : Numerics α) (c : Config α) (st : State α n) (t : Proposal α n) (f : Vec α n)

/-- Resizing the trust region counts the poor steps and leaves the rest of the record alone. -/
theorem record_resize (g : Gain α) (length : α) :
    (st.resize g length).record =
      { st.record with failures := if g.ratio < 0.1 then st.failures + 1 else 0 } := by
  rw [State.resize]
  split <;> rfl

/-- The gain of a trial step to the proposal `t`, where the residuals are `f`. -/
def State.gainOf : Gain α := st.gain nm (st.model t.step) (nm.vecNorm f)

/-- After the poor steps are counted, tracking the progress completes the record of the trial. -/
theorem record_track {st st' : State α n} {g : Gain α}
    (h : st'.record =
      { st.record with failures := if g.ratio < 0.1 then st.failures + 1 else 0 }) :
    (st'.track g).record = st.record.tried g := by
  simp only [State.record, Record.mk.injEq] at h
  obtain ⟨hfailures, hsteps, hjacobians, hfirst, hstale⟩ := h
  simp only [State.track, State.record, Record.tried, hfailures, hsteps, hjacobians, hfirst, hstale]
  rfl

/-- A trial step is entered in the record, whether it is accepted or not. -/
theorem record_after : (st.after nm t f).record = st.record.tried (st.gainOf nm t f) := by
  rw [State.after]
  refine record_track ?_
  have hres := record_resize st (st.gainOf nm t f) t.length
  by_cases hacc : accepts nm st t f
  · simp only [if_pos hacc]
    exact hres
  · simp only [if_neg hacc]
    exact hres

/-- Going on after a trial step, the solve remembers that it was not the first one any more, or it
gives the Jacobian up. -/
theorem record_continued :
    (st.continued nm t f).record =
      if (st.after nm t f).failures = 2 then
        { st.record.tried (st.gainOf nm t f) with stale := true }
      else { st.record.tried (st.gainOf nm t f) with firstStep := false } := by
  rw [← record_after, State.continued]
  split <;> rfl

end Parts

/-! ### The history of a solve -/

section History

variable (nm : Numerics α) (p : Problem σ α n n) (linearize : Linearize σ α n)

/-- The deed of the move that follows a moment, if it is one. A trial step has a gain if the
evaluation at its point is not aborted. -/
def deed? (mo : Moment σ α n (State α n)) : Option (Deed α) :=
  match mo.stage with
  | .ready => if attempt linearize mo.state mo.world = .omitted then none else some .jacobian
  | .proposed t =>
    match p.evaluate t.point mo.world with
    | (.error _, _) => none
    | (.ok f, _) => some (.trial (mo.state.gainOf nm t f) mo.state.firstStep)
  | _ => none

/-- What has been done before each of the moments of a solve. -/
def history (moments : Nat → Moment σ α n (State α n)) : Nat → History α
  | 0 => []
  | k + 1 => (deed? nm p linearize (moments k)).toList ++ history moments k

end History

/-- The counts of a record are those of a history. -/
structure Record.Agrees (r : Record) (h : History α) : Prop where
  failures : r.failures = h.failures
  slowSteps : r.slowSteps = h.slowSteps
  slowJacobians : r.slowJacobians = h.slowJacobians

/-- What the record says about the next step fits to the history: a Jacobian that is stale was given
up after a second poor step in a row, unless there is none yet, and a step that is to be the first
one follows a Jacobian. As long as the solve goes on, it has not stalled. -/
def Record.Fits (r : Record) (h : History α) : Stage α n → Prop
  | .ready => h.slowSteps < 10 ∧ h.slowJacobians < 5 ∧
      (r.stale = true → h = [] ∨ h.failures = 2 ∧ ∃ g first older, h = .trial g first :: older) ∧
      (r.stale = false → r.firstStep = false ∧ ∃ g first older, h = .trial g first :: older)
  | .ended _ => True
  | _ => h.slowSteps < 10 ∧ h.slowJacobians < 5 ∧ r.stale = false ∧ h ≠ [] ∧
      (r.firstStep = true ↔ ∃ older, h = .jacobian :: older)

/-- The state at a moment remembers the history `h`. -/
structure Remembers (h : History α) (mo : Moment σ α n (State α n)) : Prop where
  legal : h.Legal
  jacobians : mo.state.jacobians ≤ h.jacobians
  agrees : mo.state.record.Agrees h
  fits : mo.state.record.Fits h mo.stage

/-- The counts go through a new Jacobian. -/
theorem Record.Agrees.jacobian {r : Record} {h : History α} (hr : r.Agrees h) :
    r.Agrees (.jacobian :: h) where
  failures := by rw [History.failures_jacobian, hr.failures]
  slowSteps := by rw [History.slowSteps_jacobian, hr.slowSteps]
  slowJacobians := by rw [History.slowJacobians_jacobian, hr.slowJacobians]

/-- The counts go through a trial step, however it went. -/
theorem Record.Agrees.trial {r : Record} {h : History α} (hr : r.Agrees h) (g : Gain α) :
    (r.tried g).Agrees (.trial g r.firstStep :: h) where
  failures := by rw [History.failures_trial, ← hr.failures, Record.tried]
  slowSteps := by rw [History.slowSteps_trial, ← hr.slowSteps, Record.tried]
  slowJacobians := by rw [History.slowJacobians_trial, ← hr.slowJacobians, Record.tried]

section Moves

variable {nm : Numerics α} {c : Config α} {budget : Nat} {p : Problem σ α n n}
  {linearize : Linearize σ α n} {h : History α}

variable (nm c) in
/-- A Jacobian that was given up is computed anew, and the next step is the first one with it. -/
theorem Linearize.KeepsRecord.refresh_of_stale (hl : linearize.KeepsRecord) {st : State α n}
    (s : σ) (hstale : st.stale = true) :
    (refresh nm c linearize st s).2.1.jacobians ≤ st.jacobians + 1 ∧
      (((refresh nm c linearize st s).2.1.record = st.record ∧
          ∃ e, (refresh nm c linearize st s).1 = .error e) ∨
        (refresh nm c linearize st s).2.1.record =
          { st.record with firstStep := true, stale := false }) := by
  have hrecord := hl.record st s
  have hjacobians := hl.jacobians st s
  rw [refresh, if_pos hstale]
  rcases hlin : linearize st s with ⟨e | _, st', s'⟩
  · rw [hlin] at hrecord hjacobians
    exact ⟨hjacobians, Or.inl ⟨hrecord, e, rfl⟩⟩
  · rw [hlin] at hrecord hjacobians
    refine ⟨(jacobians_factorize st').trans_le hjacobians, Or.inr ?_⟩
    rw [← hrecord]
    rfl

/-- A round that begins with a Jacobian adds it to the history. -/
theorem Remembers.ready_of_stale (hl : linearize.KeepsRecord) {st : State α n} {s s' : σ}
    {b : Vec α n} (hmo : Remembers h ⟨.ready, st, s, b⟩) (hstale : st.stale = true) :
    Remembers (.jacobian :: h)
      ⟨.ofPreparation (prepare nm c p linearize st s).1, (prepare nm c p linearize st s).2.1, s',
        b⟩ := by
  obtain ⟨hlegal, hjacobians, hagrees, hsteps, hjacs, hgiven, -⟩ := hmo
  obtain ⟨hcount, hrecord⟩ := hl.refresh_of_stale nm c s hstale
  refine ⟨?_, ?_, ?_, ?_⟩
  · obtain rfl | ⟨hfail, g, first, older, rfl⟩ := hgiven hstale
    · exact .first
    · exact .again hlegal hfail
  · rw [prepare_state, History.jacobians_jacobian]
    exact hcount.trans (Nat.succ_le_succ hjacobians)
  · simp only [prepare_state]
    obtain ⟨hkept, -⟩ | hfresh := hrecord
    · rw [hkept]
      exact hagrees.jacobian
    · rw [hfresh]
      exact ⟨hagrees.jacobian.failures, hagrees.jacobian.slowSteps,
        hagrees.jacobian.slowJacobians⟩
  · rcases hgo : (prepare nm c p linearize st s).1 with _ | reason
    · -- the Jacobian has been computed, since the round is prepared
      obtain ⟨s'', hok⟩ := refresh_of_prepare hgo
      obtain ⟨-, e, herror⟩ | hfresh := hrecord
      · rw [hok] at herror
        cases herror
      · simp only [prepare_state, hfresh]
        refine ⟨?_, ?_, rfl, List.cons_ne_nil _ _, fun _ => ⟨h, rfl⟩, fun _ => rfl⟩
        · rw [History.slowSteps_jacobian]
          exact hsteps
        · rw [History.slowJacobians_jacobian]
          exact hjacs
    · trivial

/-- A round that keeps the Jacobian adds nothing to the history. -/
theorem Remembers.ready_of_fresh {st : State α n} {s s' : σ} {b : Vec α n}
    (hmo : Remembers h ⟨.ready, st, s, b⟩) (hfresh : st.stale = false) :
    Remembers h
      ⟨.ofPreparation (prepare nm c p linearize st s).1, (prepare nm c p linearize st s).2.1, s',
        b⟩ := by
  obtain ⟨hlegal, hjacobians, hagrees, hsteps, hjacs, -, hkept⟩ := hmo
  have hstate : (prepare nm c p linearize st s).2.1 = st := by
    rw [prepare_state, refresh, if_neg (Bool.eq_false_iff.1 hfresh)]
  obtain ⟨hfirst, g, first, older, rfl⟩ := hkept hfresh
  rw [hstate]
  refine ⟨hlegal, hjacobians, hagrees, ?_⟩
  rcases (prepare nm c p linearize st s).1 with _ | reason
  · refine ⟨hsteps, hjacs, hfresh, List.cons_ne_nil _ _, fun hset => ?_, fun hlast => ?_⟩
    · exact absurd (hfirst.symm.trans hset) Bool.false_ne_true
    · obtain ⟨older', hlast⟩ := hlast
      cases hlast
  · trivial

/-- The beginning of a round adds a Jacobian to the history if the old one was given up. -/
theorem Remembers.ready (hl : linearize.KeepsRecord) {st : State α n} {s : σ} {b : Vec α n}
    (hmo : Remembers h ⟨.ready, st, s, b⟩) :
    Remembers ((deed? nm p linearize ⟨.ready, st, s, b⟩).toList ++ h)
      ((method nm c budget p linearize).next (accepts nm) p ⟨.ready, st, s, b⟩) := by
  rw [Method.next_ready, deed?]
  simp only
  by_cases hstale : st.stale = true
  · have hattempt : attempt linearize st s ≠ .omitted := by
      rw [attempt, if_pos hstale]
      rcases (linearize st s).1 with e | _ <;> exact fun h => by cases h
    rw [if_neg hattempt]
    exact hmo.ready_of_stale hl hstale
  · rw [if_pos (show attempt linearize st s = .omitted by rw [attempt, if_neg hstale])]
    exact hmo.ready_of_fresh (Bool.eq_false_iff.2 hstale)

/-- If the tests let the solve go on, it has not stalled. -/
theorem ne_of_stop? {st : State α n} {accepted : Bool} {length : α}
    (hgo : st.stop? nm c budget accepted length = none) :
    st.slowSteps ≠ 10 ∧ st.slowJacobians ≠ 5 := by
  rw [State.stop?] at hgo
  constructor
  all_goals
    intro heq
    rw [if_pos heq] at hgo
    repeat' split at hgo
    all_goals cases hgo

/-- A trial step that does not end the solve is remembered, and the record says what comes next. -/
theorem Remembers.fits_continued {st : State α n} {s : σ} {t : Proposal α n} {b : Vec α n}
    (hmo : Remembers h ⟨.proposed t, st, s, b⟩) (f : Vec α n) {accepted : Bool} {length : α}
    (hgo : (st.after nm t f).stop? nm c budget accepted length = none) :
    (st.continued nm t f).record.Fits (.trial (st.gainOf nm t f) st.firstStep :: h)
      (.ready : Stage α n) := by
  obtain ⟨-, -, hagrees, hsteps, hjacs, hstale, -, -⟩ := hmo
  have hafter := hagrees.trial (st.gainOf nm t f)
  have hrecord := record_after nm st t f
  obtain ⟨hten, hfive⟩ := ne_of_stop? hgo
  have hfail : (st.after nm t f).failures =
      History.failures (.trial (st.gainOf nm t f) st.firstStep :: h) :=
    (congrArg Record.failures hrecord).trans hafter.failures
  have hslow : (st.after nm t f).slowSteps =
      History.slowSteps (.trial (st.gainOf nm t f) st.firstStep :: h) :=
    (congrArg Record.slowSteps hrecord).trans hafter.slowSteps
  have hslow' : (st.after nm t f).slowJacobians =
      History.slowJacobians (.trial (st.gainOf nm t f) st.firstStep :: h) :=
    (congrArg Record.slowJacobians hrecord).trans hafter.slowJacobians
  refine ⟨?_, ?_, ?_⟩
  · exact History.slowSteps_trial_lt hsteps (hslow ▸ hten)
  · exact History.slowJacobians_trial_lt hjacs (hslow' ▸ hfive)
  · rw [record_continued, hfail]
    by_cases htwo : History.failures (.trial (st.gainOf nm t f) st.firstStep :: h) = 2
    · rw [if_pos htwo]
      exact ⟨fun _ => Or.inr ⟨htwo, _, _, _, rfl⟩, fun hfresh => by cases hfresh⟩
    · rw [if_neg htwo]
      exact ⟨fun hgiven => absurd (hstale.symm.trans hgiven) Bool.false_ne_true,
        fun _ => ⟨rfl, _, _, _, rfl⟩⟩

/-- A verdict adds the trial step to the history. -/
theorem Remembers.judge {st : State α n} {s s' : σ} {t : Proposal α n} {b b' : Vec α n}
    (hmo : Remembers h ⟨.proposed t, st, s, b⟩) (f : Vec α n) :
    Remembers (.trial (st.gainOf nm t f) st.firstStep :: h)
      ⟨.ofVerdict (st.judge nm c budget t f).1, (st.judge nm c budget t f).2, s', b'⟩ := by
  have hgo := @Remembers.fits_continued σ α _ n nm c budget h st s t b hmo f
    (accepts nm st t f) t.length
  obtain ⟨hlegal, hjacobians, hagrees, -, -, -, hne, hfirst⟩ := hmo
  have hafter := hagrees.trial (st.gainOf nm t f)
  have hcount : (st.judge nm c budget t f).2.jacobians = st.jacobians :=
    (congrArg Iterate.jacobians (toIterate_judge nm c st budget t f)).trans (jacobians_after st t f)
  refine ⟨.trial _ hlegal hne hfirst, ?_, ?_, ?_⟩
  · rw [History.jacobians_trial]
    exact hcount.trans_le hjacobians
  all_goals
    rw [judge_eq]
    rcases hstop : (st.after nm t f).stop? nm c budget (accepts nm st t f) t.length with _ | reason
  · simp only [record_continued]
    split
    · exact ⟨hafter.failures, hafter.slowSteps, hafter.slowJacobians⟩
    · exact ⟨hafter.failures, hafter.slowSteps, hafter.slowJacobians⟩
  · simp only [record_after]
    exact hafter
  · exact hgo hstop
  · trivial

/-- Every move is remembered. -/
theorem Remembers.next (hl : linearize.KeepsRecord) {mo : Moment σ α n (State α n)}
    (hmo : Remembers h mo) :
    Remembers ((deed? nm p linearize mo).toList ++ h)
      ((method nm c budget p linearize).next (accepts nm) p mo) := by
  obtain ⟨stage, st, s, b⟩ := mo
  cases stage with
  | ready => exact hmo.ready hl
  | prepared =>
    obtain ⟨hlegal, hjacobians, hagrees, hfits⟩ := hmo
    exact ⟨hlegal, hjacobians, ⟨hagrees.failures, hagrees.slowSteps, hagrees.slowJacobians⟩, hfits⟩
  | proposed t =>
    rcases heval : p.evaluate t.point s with ⟨e | f, s'⟩
    · simp only [Method.next_proposed_of_error heval, deed?, heval]
      exact ⟨hmo.legal, hmo.jacobians, hmo.agrees, trivial⟩
    · simp only [Method.next_proposed_of_ok heval, deed?, heval]
      exact hmo.judge f
  | ended reason => exact hmo

end Moves

/-! ### Solves -/

/-- A solve with the moments `course` and the report `rep` watches its progress. -/
structure WatchesProgress (nm : Numerics α) (p : Problem σ α n n) (linearize : Linearize σ α n)
    (course : Nat → Moment σ α n (State α n)) (rep : Report α n) : Prop where
  /-- A Jacobian that is not the first one directly follows two poor trial steps. -/
  after_failures (k : Nat) (later before : History α) :
    history nm p linearize course k = later ++ .jacobian :: before → before ≠ [] →
    ∃ g₁ first₁ g₂ first₂ older, before = .trial g₂ first₂ :: .trial g₁ first₁ :: older ∧
      g₁.ratio < 0.1 ∧ g₂.ratio < 0.1
  /-- Between two Jacobians none of which is the first one there are three trial steps. -/
  apart (k : Nat) (later between before : History α) :
    history nm p linearize course k =
      later ++ .jacobian :: (between ++ .jacobian :: before) → before ≠ [] → 3 ≤ between.trials
  /-- The number of Jacobians is limited by that of the trial steps. -/
  ends : ∃ k, (course k).stage = .ended rep.termination ∧
    3 * (rep.jacobians - 1) ≤ (history nm p linearize course k).trials + 1
  /-- A trial step is taken for the first one if and only if it directly follows a Jacobian. -/
  first_iff (k : Nat) (later before : History α) (g : Gain α) (first : Bool) :
    history nm p linearize course k = later ++ .trial g first :: before →
    (first = true ↔ ∃ older, before = .jacobian :: older)
  /-- If the solve goes on after a trial step, it has not stalled. -/
  goes_on (k : Nat) (t : Proposal α n) (f : Vec α n) (s : σ) :
    (course k).stage = .proposed t → p.evaluate t.point (course k).world = (.ok f, s) →
    (course (k + 1)).stage = .ready →
    (history nm p linearize course (k + 1)).slowSteps < 10 ∧
      (history nm p linearize course (k + 1)).slowJacobians < 5

section Run

variable (nm : Numerics α) (c : Config α) {patience : Nat} (p : Problem σ α n n)
  {linearize : Linearize σ α n} (x : Vec α n) (s : σ)

/-- At every moment of a solve the state remembers its history. -/
theorem remembers_course (hl : linearize.KeepsRecord) (k : Nat) :
    Remembers (history nm p linearize (course nm c patience p linearize x s) k)
      (course nm c patience p linearize x s k) := by
  induction k with
  | zero =>
    rcases hc : c.fault? n with _ | e
    · rw [course_eq hc]
      -- nothing has been done before the first round, and there is no Jacobian yet
      rcases heval : p.evaluate x s with ⟨e | f, s'⟩
      · simp only [Method.course_zero, Method.opening, Iterate.evaluate, Iterate.start, heval]
        exact ⟨.nil, Nat.le_refl _, ⟨rfl, rfl, rfl⟩, trivial⟩
      · simp only [Method.course_zero, Method.opening, Iterate.evaluate, Iterate.start, heval]
        refine ⟨.nil, Nat.le_refl _, ⟨rfl, rfl, rfl⟩, ?_⟩
        split
        · trivial
        · refine ⟨Nat.zero_lt_succ _, Nat.zero_lt_succ _, fun _ => Or.inl rfl, ?_⟩
          intro hfresh
          cases hfresh
    · simp only [course, hc]
      exact ⟨.nil, Nat.le_refl _, ⟨rfl, rfl, rfl⟩, trivial⟩
  | succ k ih =>
    rcases hc : c.fault? n with _ | e
    · rw [course_eq hc] at ih ⊢
      rw [history, Method.course_succ]
      exact ih.next hl
    · simp only [course, hc] at ih ⊢
      exact ih

/-- Every solve watches its progress. -/
theorem watchesProgress_run (hl : linearize.Recounts) (hr : linearize.KeepsRecord)
    (hpat : 0 < patience) :
    WatchesProgress nm p linearize (course nm c patience p linearize x s)
      (run nm c patience p linearize x s).1 := by
  have hlegal : ∀ {k : Nat} {later before : History α},
      history nm p linearize (course nm c patience p linearize x s) k = later ++ before →
      before.Legal := by
    intro k later before hk
    exact (hk ▸ (remembers_course nm c p x s hr k).legal).of_append
  refine ⟨?_, ?_, ?_, ?_, ?_⟩
  · intro k later before hk hne
    exact (hlegal hk).after_failures hne
  · intro k later between before hk hne
    exact (hlegal hk).apart hne
  · obtain ⟨k, hend⟩ := exists_course_report nm c p x s hl hpat
    obtain ⟨hstage, hreport⟩ := hend k (Nat.le_refl k)
    have hk : Remembers _ (course nm c patience p linearize x s k) :=
      remembers_course nm c p x s hr k
    refine ⟨k, hstage, ?_⟩
    rw [← hreport]
    change 3 * ((course nm c patience p linearize x s k).state.jacobians - 1) ≤ _
    exact hk.legal.three_mul_le hk.jacobians
  · intro k later before g first hk
    cases hlegal hk with
    | trial _ _ _ hfirst => exact hfirst
  · intro k t f s' _ _ hready
    have hk : Remembers _ (course nm c patience p linearize x s (k + 1)) :=
      remembers_course nm c p x s hr (k + 1)
    have hfits := hk.fits
    rw [hready] at hfits
    exact ⟨hfits.1, hfits.2.1⟩

end Run

end Equations

end NonlinearSolve

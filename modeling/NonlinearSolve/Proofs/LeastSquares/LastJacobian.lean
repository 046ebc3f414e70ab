import Mathlib.Analysis.SpecialFunctions.Sqrt
import NonlinearSolve.Proofs.LeastSquares.Accounts
import NonlinearSolve.Proofs.LeastSquares.Linearizations
import NonlinearSolve.Proofs.Linear.Covariances

/-! # The factorization of the last Jacobian

Trial steps leave the factorization alone, so at the end of a solve it is still that of the last
Jacobian, with the residuals at the iterate where it was computed. Each of the three linearizations
factors the normal equations of its Jacobian (`Linearize.Factors`), rows included that come from
calls with side effects. What the report shows then describes that Jacobian (`Report.Describes`,
`describesLast_run`). -/

namespace NonlinearSolve

/-! ### Jacobians -/

section Jacobians

variable {σ α : Type} {m r n : Nat}

/-- Asks for a list of rows of the Jacobian and puts them into the matrix `a`. -/
def RowProblem.gather (p : RowProblem σ α m n) (x : Vec α n) :
    List (Fin m) → Mat α m n → σ → Except Abort (Mat α m n) × σ
  | [], a, s => (.ok a, s)
  | i :: rows, a, s =>
    match p.jacobianRow x i s with
    | (.error e, s) => (.error e, s)
    | (.ok w, s) => p.gather x rows (a.setRow i w) s

namespace LeastSquares

/-- The Jacobian that is linearized by, or the abort that prevents it. -/
abbrev Jacobian (σ α : Type) (m r n : Nat) := State α m r n → σ → Except Abort (Mat α m n)

/-- The Jacobian of the problem. -/
def analyticJacobian (p : JacobianProblem σ α m n) : Jacobian σ α m m n :=
  fun st s => (p.jacobian st.x s).1

/-- The matrix of the forward differences. -/
def numericalJacobian [Scalar α] (nm : Numerics α) (c : Settings α) (p : Problem σ α m n) :
    Jacobian σ α m m n :=
  fun st s =>
    let out := ForwardDifference.dense p nm c.epsfcn st.x st.residuals st.factor s
    out.1.map fun _ => out.2.2.1

/-- The matrix of the rows, each of them as it was returned. -/
def rowwiseJacobian [Scalar α] (p : RowProblem σ α m n) : Jacobian σ α m n n :=
  fun st s => (p.gather st.x (List.finRange m) (Mat.zero m n) s).1

/-- The Jacobian that the move after a moment linearizes by, if it completes a linearization. -/
def jacobianAt? (c : Settings α) (p : Problem σ α m n) (jac : Jacobian σ α m r n)
    (mo : Moment σ α n (State α m r n)) : Option (Mat α m n) :=
  match mo.stage with
  | .ready => (linearizesFrom? c p mo.state mo.world).bind fun s => (jac mo.state s).toOption
  | _ => none

/-- A round that begins and linearizes does so by the Jacobian in its state. -/
theorem jacobianAt?_of_ready {c : Settings α} {p : Problem σ α m n} {jac : Jacobian σ α m r n}
    {mo : Moment σ α n (State α m r n)} {s : σ} {a : Mat α m n} (hready : mo.stage = .ready)
    (hs : linearizesFrom? c p mo.state mo.world = some s) (ha : jac mo.state s = .ok a) :
    jacobianAt? c p jac mo = some a := by
  simp only [jacobianAt?, hready, hs, Option.bind_some, ha]
  rfl

/-- A Jacobian that is the same in all states is that of every linearization. -/
theorem eq_of_jacobianAt? {c : Settings α} {p : Problem σ α m n} (jac : Jacobian σ α m r n)
    {a b : Mat α m n} (hconst : ∀ st s, jac st s = .ok a) {mo : Moment σ α n (State α m r n)}
    (hjac : jacobianAt? c p jac mo = some b) : b = a := by
  rw [jacobianAt?] at hjac
  split at hjac
  · obtain ⟨s, -, hs⟩ := Option.bind_eq_some_iff.1 hjac
    rw [hconst] at hs
    exact (Option.some_inj.1 hs).symm
  · cases hjac

/-- A linearization that is completed in all states never aborts. -/
theorem attempts_ne_aborted {c : Config α} {p : Problem σ α m n}
    {linearize : n ≤ m → Linearize σ α m r n}
    (hok : ∀ h st s, ∃ norms, (linearize h st s).1 = .ok norms)
    (mo : Moment σ α n (State α m r n)) (e : Abort) : attempts c p linearize mo ≠ .aborted e := by
  intro hab
  rw [attempts] at hab
  split at hab
  · rw [Moment.attempt] at hab
    split at hab
    · rw [attempt] at hab
      split at hab
      · cases hab
      · obtain ⟨norms, hnorms⟩ := hok _ mo.state _
        rw [hnorms] at hab
        cases hab
    · cases hab
  · cases hab

end LeastSquares

end Jacobians

namespace LeastSquares

open Matrix Scalar

variable {σ : Type} {m r n : Nat} {ε τ : ℝ} {z : Bool}

/-- The state holds a factorization of the normal equations for the Jacobian `a` and the residuals
`f`. -/
def State.Factors (h : n ≤ r) (st : State ℝ m r n) (a : Mat ℝ m n) (f : Vec ℝ m) : Prop :=
  (NormalEquations.ofProblem a.toMatrix f.get).Factored (st.factor.leading h).upper st.order
    st.rhs.get

/-- A linearization that factors the normal equations of the Jacobian `jac`, whenever it is
completed. -/
def Linearize.Factors (linearize : Linearize σ ℝ m r n) (h : n ≤ r) (jac : Jacobian σ ℝ m r n) :
    Prop :=
  ∀ (st : State ℝ m r n) (s : σ) (norms : Vec ℝ n), (linearize st s).1 = .ok norms →
    ∃ a, jac st s = .ok a ∧ (linearize st s).2.1.Factors h a st.residuals

section Linearizations

variable (ε τ z)

/-- A state that has factored a Jacobian has the factors of that Jacobian. -/
theorem factors_factorize (h : n ≤ m) (st : State ℝ m m n) (a : Mat ℝ m n) :
    (st.factorize (Numerics.exact ε τ z) h a).2.Factors h a st.residuals :=
  (QR.factor_factors ε τ z true a).factored h st.residuals

/-- Linearizing with the Jacobian of the problem factors its answer. -/
theorem factors_analytic (h : n ≤ m) (p : JacobianProblem σ ℝ m n) :
    Linearize.Factors (analytic (Numerics.exact ε τ z) h p) h (analyticJacobian p) := by
  intro st s norms hok
  rw [analytic] at hok ⊢
  rw [analyticJacobian]
  rcases hjac : p.jacobian st.x s with ⟨e | a, s'⟩
  · rw [hjac] at hok
    cases hok
  · exact ⟨a, rfl, factors_factorize ε τ z h st a⟩

/-- Linearizing by differences factors the matrix of differences. -/
theorem factors_numerical (h : n ≤ m) (c : Settings ℝ) (p : Problem σ ℝ m n) :
    Linearize.Factors (numerical (Numerics.exact ε τ z) h c p) h
      (numericalJacobian (Numerics.exact ε τ z) c p) := by
  intro st s norms hok
  rw [numerical] at hok ⊢
  rw [numericalJacobian]
  rcases hsweep : ForwardDifference.dense p (Numerics.exact ε τ z) c.epsfcn st.x st.residuals
    st.factor s with ⟨e | _, x, a, s'⟩
  · rw [hsweep] at hok
    cases hok
  · exact ⟨a, rfl, factors_factorize ε τ z h
      { st with x := x, evaluations := st.evaluations + n } a⟩

/-! ### Row by row -/

/-- Gathering rows leaves the other rows alone. -/
theorem gather_row_of_notMem {p : RowProblem σ ℝ m n} {x : Vec ℝ n} {rows : List (Fin m)}
    {a a' : Mat ℝ m n} {s : σ} (hgather : (p.gather x rows a s).1 = .ok a') {i : Fin m}
    (hi : i ∉ rows) : a'.toMatrix.row i = a.toMatrix.row i := by
  induction rows generalizing a s with
  | nil =>
    cases hgather
    rfl
  | cons k rows ih =>
    rw [RowProblem.gather] at hgather
    rcases hrow : p.jacobianRow x k s with ⟨e | w, s'⟩
    · rw [hrow] at hgather
      cases hgather
    · rw [hrow] at hgather
      have hik : i ≠ k := fun h => hi (h ▸ List.mem_cons_self)
      rw [ih hgather fun h => hi (List.mem_cons_of_mem k h)]
      funext j
      exact (a.setRow_apply k i w j).trans (if_neg hik)

/-- Folding in rows, each of them different, adds to the normal equations what is gathered. -/
theorem foldRows_gather {p : RowProblem σ ℝ m n} {x : Vec ℝ n} (f : Vec ℝ m)
    {rows : List (Fin m)} (hrows : rows.Nodup) {q : Mat ℝ n n} (hq : q.toMatrix.IsUpperTriangular)
    (b : Vec ℝ n) (a : Mat ℝ m n) (s : σ)
    (hok : (foldRows p x f rows q b s).1 = .ok ()) :
    ∃ a', (p.gather x rows a s).1 = .ok a' ∧
      (foldRows p x f rows q b s).2.1.toMatrix.IsUpperTriangular ∧
      NormalEquations.ofProblem (foldRows p x f rows q b s).2.1.toMatrix
          (foldRows p x f rows q b s).2.2.1.get =
        rows.foldl (fun eqs i => eqs.addRow (a'.toMatrix.row i) (f i))
          (NormalEquations.ofProblem q.toMatrix b.get) := by
  induction rows generalizing q b a s with
  | nil => exact ⟨a, rfl, hq, rfl⟩
  | cons i rows ih =>
    obtain ⟨hi, hrows⟩ := List.nodup_cons.1 hrows
    rw [foldRows] at hok ⊢
    rw [RowProblem.gather]
    rcases hrow : p.jacobianRow x i s with ⟨e | w, s'⟩
    · rw [hrow] at hok
      cases hok
    · -- no later row overwrites this one
      rw [hrow] at hok
      obtain ⟨htri, heq⟩ := equations_rowUpdate hq w b (f i)
      obtain ⟨a', hgather, htri', heq'⟩ := ih hrows htri (rowUpdate q w b (f i)).b (a.setRow i w)
        s' hok
      have hw : a'.toMatrix.row i = w.get := by
        rw [gather_row_of_notMem hgather hi]
        funext j
        exact (a.setRow_apply i i w j).trans (if_pos rfl)
      refine ⟨a', hgather, htri', ?_⟩
      rw [List.foldl_cons, hw, ← heq]
      exact heq'

/-- A triangle is a factor of its normal equations, if need be after another factorization. -/
theorem factored_settle (st : State ℝ m n n) (htri : st.factor.toMatrix.IsUpperTriangular) :
    (NormalEquations.ofProblem st.factor.toMatrix st.rhs.get).Factored
      ((st.settle (Numerics.exact ε τ z)).2.factor.leading le_rfl).upper
      (st.settle (Numerics.exact ε τ z)).2.order (st.settle (Numerics.exact ε τ z)).2.rhs.get := by
  rw [State.settle]
  simp only
  split
  · have hrow := (QR.factor_factors ε τ z true st.factor).factored le_rfl st.rhs
    have hrhs : ∀ v : Vec ℝ n, v.leading le_rfl = v :=
      fun v => Vec.ext fun i => Vec.leading_apply le_rfl v i
    rwa [hrhs] at hrow
  · exact factored_triangle htri st.rhs

/-- A completed linearization by rows settles a triangle that has the normal equations of the
gathered Jacobian. -/
theorem rowwise_completed (p : RowProblem σ ℝ m n) {st : State ℝ m n n} {s : σ} {norms : Vec ℝ n}
    (hok : (rowwise (Numerics.exact ε τ z) p st s).1 = .ok norms) :
    ∃ (a : Mat ℝ m n) (st' : State ℝ m n n), rowwiseJacobian p st s = .ok a ∧
      st'.factor.toMatrix.IsUpperTriangular ∧
      NormalEquations.ofProblem st'.factor.toMatrix st'.rhs.get =
        NormalEquations.ofProblem a.toMatrix st.residuals.get ∧
      norms = (st'.settle (Numerics.exact ε τ z)).1 ∧
      (rowwise (Numerics.exact ε τ z) p st s).2.1 = (st'.settle (Numerics.exact ε τ z)).2 := by
  have hzero : (Mat.zero n n : Mat ℝ n n).toMatrix = 0 := by
    ext i j
    exact Mat.zero_apply i j
  have hvec : (Vec.zero n : Vec ℝ n).get = 0 := funext Vec.zero_apply
  have hstart : (Mat.zero n n : Mat ℝ n n).toMatrix.IsUpperTriangular := by
    rw [hzero]
    exact fun _ _ _ => rfl
  have hgather := foldRows_gather (p := p) (x := st.x) st.residuals (List.nodup_finRange m) hstart
    (Vec.zero n) (Mat.zero m n) s
  rw [hzero, hvec, NormalEquations.ofProblem_zero] at hgather
  rw [rowwise] at hok ⊢
  rcases hfold : foldRows p st.x st.residuals (List.finRange m) (Mat.zero n n) (Vec.zero n) s with
    ⟨e | _, q, b, s'⟩
  · rw [hfold] at hok
    cases hok
  · rw [hfold] at hgather hok
    obtain ⟨a, hjac, htri, heq⟩ := hgather rfl
    rw [NormalEquations.foldl_addRow_finRange] at heq
    refine ⟨a, { st with factor := q, rhs := b }, hjac, htri, heq, ?_, rfl⟩
    cases hok
    rfl

/-- Linearizing row by row factors the matrix of the rows that were answered. -/
theorem factors_rowwise (p : RowProblem σ ℝ m n) :
    Linearize.Factors (rowwise (Numerics.exact ε τ z) p) le_rfl (rowwiseJacobian p) := by
  intro st s norms hok
  obtain ⟨a, st', hjac, htri, heq, -, hsettle⟩ := rowwise_completed ε τ z p hok
  refine ⟨a, hjac, ?_⟩
  rw [hsettle, State.Factors, ← heq]
  exact factored_settle ε τ z st' htri

end Linearizations

/-! ### What moves leave alone -/

section Moves

variable {nm : Numerics ℝ} {c : Config ℝ} {budget : Nat} {h : n ≤ r} {p : Problem σ ℝ m n}
  {linearize : Linearize σ ℝ m r n} {accepts : Acceptance (State ℝ m r n) ℝ m n} {a : Mat ℝ m n}
  {f : Vec ℝ m}

/-- Which Jacobian a state has factored depends on its factorization only. -/
theorem State.Factors.congr {st st' : State ℝ m r n} (hst : st.Factors h a f)
    (hsame : st.SameFactorization st') : st'.Factors h a f := by
  rw [State.Factors, ← (hsame.factor.leading h).upper_eq, hsame.order, hsame.rhs]
  exact hst

/-- A move that does not linearize leaves the factors alone. -/
theorem factors_next_of_omitted {mo : Moment σ ℝ n (State ℝ m r n)}
    (homit : mo.attempt (attempt c.toSettings p linearize) = .omitted)
    (hmo : mo.state.Factors h a f) :
    ((method nm c budget h p linearize).next accepts p mo).state.Factors h a f :=
  hmo.congr (factorization_next_of_omitted nm budget h accepts homit)

/-- A move that completes a linearization leaves the factorization of its Jacobian. -/
theorem factors_next_of_completed {jac : Jacobian σ ℝ m r n} (hl : linearize.Factors h jac)
    {mo : Moment σ ℝ n (State ℝ m r n)}
    (hcomp : mo.attempt (attempt c.toSettings p linearize) = .completed) :
    ∃ a, jacobianAt? c.toSettings p jac mo = some a ∧
      ((method nm c budget h p linearize).next accepts p mo).state.Factors h a
        mo.state.residuals := by
  obtain ⟨s, norms, hready, hs, hok, hnext⟩ := next_of_completed nm budget h accepts hcomp
  obtain ⟨a, hjac, hfactors⟩ := hl mo.state s norms hok
  refine ⟨a, jacobianAt?_of_ready hready hs hjac, ?_⟩
  rw [hnext]
  exact hfactors.congr (factorization_adapt nm c h _ norms)

end Moves

/-! ### Reports -/

/-- The report shows a factorization of the normal equations for the Jacobian `a` and the residuals
`f`. If the Jacobian has full column rank, it shows the covariance as well. -/
structure Report.Describes (rep : Report ℝ m r n) (h : n ≤ r) (a : Mat ℝ m n) (f : Vec ℝ m) :
    Prop where
  bijective : Function.Bijective rep.order.get
  gram : ((rep.factor.leading h).upper)ᵀ * (rep.factor.leading h).upper =
    (a.toMatrixᵀ * a.toMatrix).submatrix rep.order.get rep.order.get
  gradient : ((rep.factor.leading h).upper)ᵀ *ᵥ rep.rhs.get =
    (a.toMatrixᵀ *ᵥ f.get) ∘ rep.order.get
  covariance : a.toMatrix.rank = n → (rep.covariance 0).rank = n ∧
    (rep.covariance 0).matrix.toMatrix = (a.toMatrixᵀ * a.toMatrix)⁻¹
  scaledCovariance : a.toMatrix.rank = n → n < m → ∃ cov, rep.scaledCovariance 0 = some cov ∧
    cov.rank = n ∧ cov.matrix.toMatrix =
      (rep.residualNorm ^ 2 / (m - n)) • (a.toMatrixᵀ * a.toMatrix)⁻¹

/-- The report on a state describes the Jacobian that the state has factored. -/
theorem State.Factors.describes {h : n ≤ r} {st : State ℝ m r n} {a : Mat ℝ m n} {f : Vec ℝ m}
    (hst : st.Factors h a f) (reason : Termination) : (st.report reason).Describes h a f := by
  have hcov : a.toMatrix.rank = n → ((st.report reason).covariance 0).rank = n ∧
      ((st.report reason).covariance 0).matrix.toMatrix = (a.toMatrixᵀ * a.toMatrix)⁻¹ := by
    intro hrank
    rw [Report.covariance, dif_pos h]
    exact Covariance.ofFactor_eq_inv hst (NormalEquations.det_ofProblem_ne_zero hrank f.get)
  refine ⟨hst.bijective, hst.gram, hst.gradient, hcov, ?_⟩
  intro hrank hmn
  obtain ⟨hfull, hmatrix⟩ := hcov hrank
  rw [Report.scaledCovariance]
  simp only [hfull, if_neg (Nat.not_le.2 hmn)]
  refine ⟨_, rfl, rfl, ?_⟩
  ext i j
  rw [Mat.toMatrix_apply, Mat.of_apply, ← hmatrix, Matrix.smul_apply, Mat.toMatrix_apply,
    smul_eq_mul, mul_comm]
  congr 1
  rw [pow_two, ← Nat.cast_sub hmn.le]

/-! ### Solves -/

/-- If a solve completes a linearization and none of its linearizations aborts, its report describes
the last one: the Jacobian of the move after some moment `k`, after which nothing is linearized, and
the residuals at that moment. -/
def DescribesLast (course : Nat → Moment σ ℝ n (State ℝ m r n))
    (attempts : Moment σ ℝ n (State ℝ m r n) → Attempt)
    (jacobian? : Moment σ ℝ n (State ℝ m r n) → Option (Mat ℝ m n)) (h : n ≤ r)
    (rep : Report ℝ m r n) : Prop :=
  (∃ i, attempts (course i) = .completed) → (∀ j a, attempts (course j) ≠ .aborted a) →
    ∃ k a, jacobian? (course k) = some a ∧ (∀ j, k < j → attempts (course j) = .omitted) ∧
      rep.Describes h a (course k).state.residuals

section Run

variable {nm : Numerics ℝ} {c : Config ℝ} {patience : Nat} {p : Problem σ ℝ m n}
  {rows : n ≤ m → n ≤ r} {linearize : n ≤ m → Linearize σ ℝ m r n} {x : Vec ℝ n} {s : σ}

/-- A solve that completes a linearization and aborts none has a last one. -/
theorem exists_last_completed (hl : ∀ h, (linearize h).Recounts) (hpat : 0 < patience) {i : Nat}
    (hi : attempts c p linearize (course nm c patience p rows linearize x s i) = .completed)
    (hok : ∀ j a, attempts c p linearize (course nm c patience p rows linearize x s j) ≠
      .aborted a) :
    ∃ k, attempts c p linearize (course nm c patience p rows linearize x s k) = .completed ∧
      ∀ j, k < j →
        attempts c p linearize (course nm c patience p rows linearize x s j) = .omitted := by
  classical
  obtain ⟨k₀, hend⟩ := exists_course_report nm c p rows x s hl hpat
  -- from the end on nothing is linearized
  have homit : ∀ j, k₀ ≤ j →
      attempts c p linearize (course nm c patience p rows linearize x s j) = .omitted := by
    intro j hj
    rw [attempts]
    split
    · rw [Moment.attempt, (hend j hj).1]
    · rfl
  set completed : Nat → Prop := fun k =>
    attempts c p linearize (course nm c patience p rows linearize x s k) = .completed
  have hik : i ≤ k₀ := by
    by_contra hlt
    rw [homit i (by omega)] at hi
    cases hi
  refine ⟨Nat.findGreatest completed k₀, Nat.findGreatest_spec (P := completed) hik hi, ?_⟩
  intro j hj
  rcases Nat.lt_or_ge k₀ j with hlt | hle
  · exact homit j hlt.le
  · have hnot : ¬ completed j := Nat.findGreatest_is_greatest hj hle
    rcases hattempt : attempts c p linearize (course nm c patience p rows linearize x s j) with
      _ | _ | a
    · rfl
    · exact absurd hattempt hnot
    · exact absurd hattempt (hok j a)

variable (rows linearize) in
/-- Every solve reports on the last Jacobian. -/
theorem describesLast_run (hl : ∀ h, (linearize h).Recounts) (h : n ≤ m)
    {jac : Jacobian σ ℝ m r n} (hf : (linearize h).Factors (rows h) jac) (hpat : 0 < patience) :
    DescribesLast (course nm c patience p rows linearize x s) (attempts c p linearize)
      (jacobianAt? c.toSettings p jac) (rows h)
      (run nm c patience p rows linearize x s).1 := by
  rintro ⟨i, hi⟩ hok
  obtain ⟨k, hk, hlast⟩ := exists_last_completed hl hpat hi hok
  obtain ⟨k₀, hend⟩ := exists_course_report nm c p rows x s hl hpat
  rcases hc : c.fault? n with _ | e
  · have hattempts : attempts c p linearize =
        Moment.attempt (attempt c.toSettings p (linearize h)) := funext fun _ => dif_pos h
    rw [course_eq h hc] at hk hlast hend ⊢
    rw [hattempts] at hk hlast ⊢
    obtain ⟨a, hjac, hfactors⟩ := factors_next_of_completed hf hk
    -- from then on the factorization stays
    have hstays : ∀ d, ((method nm c (c.budget patience n) (rows h) p (linearize h)).course
        (accepts nm (rows h)) nm c.toSettings p x s (k + 1 + d)).state.Factors (rows h) a
          ((method nm c (c.budget patience n) (rows h) p (linearize h)).course
            (accepts nm (rows h)) nm c.toSettings p x s k).state.residuals := by
      intro d
      induction d with
      | zero =>
        rw [Nat.add_zero, Method.course_succ]
        exact hfactors
      | succ d ih =>
        rw [← Nat.add_assoc, Method.course_succ]
        exact factors_next_of_omitted (hlast _ (by omega)) ih
    refine ⟨k, a, hjac, hlast, ?_⟩
    rw [← (hend (k + 1 + k₀) (by omega)).2]
    exact (hstays k₀).describes _
  · -- a solve whose input is rejected never linearizes
    rw [attempts, dif_pos h, course, dif_pos h, hc] at hk
    cases hk

end Run

end LeastSquares

end NonlinearSolve

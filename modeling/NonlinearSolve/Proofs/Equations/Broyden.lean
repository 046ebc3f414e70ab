import Mathlib.Analysis.SpecialFunctions.Sqrt
import Mathlib.LinearAlgebra.FiniteDimensional.Basic
import NonlinearSolve.Proofs.Equations.Aborts
import NonlinearSolve.Proofs.Linear.Factorization
import NonlinearSolve.Proofs.Linear.Packing
import NonlinearSolve.Proofs.Linear.RankOneUpdates

/-! # The factors of the approximate Jacobian

In exact arithmetic the hybrid method keeps a factorization `Q R` of an approximate Jacobian `B`
(`Represents`). The matrix `B` does not occur in the computation. It is the last Jacobian that was
computed (`represents_factorize`), followed by one rank-one update for every step since
(`Represents.broyden`); `approximation` follows it through a solve, from one answer to the call for
the Jacobian to the next. -/

namespace NonlinearSolve

namespace Equations

open Matrix Scalar

variable {σ : Type} {n : Nat}

/-- The triangular factor in a state, unpacked from its packed form. -/
noncomputable def State.triangle (st : State ℝ n) : Matrix (Fin n) (Fin n) ℝ :=
  (Trapezoid.ofPacked n n st.r.toPacked).upper

/-- The packed triangle of a state is read as the upper triangle of its factor. -/
theorem State.triangle_eq (st : State ℝ n) : st.triangle = st.r.upper := by
  rw [State.triangle, Trapezoid.ofPacked_toPacked le_rfl]

/-- The state holds an orthogonal factor `Q`, an upper triangular factor `R` with `Q R = b`, and the
product of `Qᵀ` with the residuals. -/
structure Represents (st : State ℝ n) (b : Matrix (Fin n) (Fin n) ℝ) : Prop where
  orthogonal : st.q.toMatrixᵀ * st.q.toMatrix = 1
  triangular (i j : Fin n) : j < i → st.triangle i j = 0
  product : st.q.toMatrix * st.triangle = b
  rhs : st.rhs.get = st.q.toMatrixᵀ *ᵥ st.residuals.get

/-- What a state has to satisfy to represent a matrix, for a factor whose lower triangle is not
read. -/
theorem Represents.of_upper {st : State ℝ n} {b : Matrix (Fin n) (Fin n) ℝ}
    (horth : st.q.toMatrixᵀ * st.q.toMatrix = 1) (hproduct : st.q.toMatrix * st.r.upper = b)
    (hrhs : st.rhs.get = st.q.toMatrixᵀ *ᵥ st.residuals.get) : Represents st b where
  orthogonal := horth
  triangular i j hij := by
    rw [st.triangle_eq]
    exact st.r.apply_of_lt hij
  product := by rw [st.triangle_eq, hproduct]
  rhs := hrhs

variable (ε τ : ℝ) (z : Bool)

/-! ### A Jacobian that was computed -/

/-- Factoring a computed Jacobian represents it. -/
theorem represents_factorize (c : Config ℝ) (st : State ℝ n) :
    Represents (st.factorize (Numerics.exact ε τ z) c) st.q.toMatrix := by
  -- without pivoting the columns stay in their order, so that `Q R` is the Jacobian itself
  set qr := QR.factor (Numerics.exact ε τ z) false st.q with hqr
  have hfactors : QR.Factors st.q qr := QR.factor_factors ε τ z false st.q
  have horder : qr.order.get = id := by
    rw [hqr, QR.factor_order]
    exact funext fun j => Vec.identity_apply j
  have heq := hfactors.eq
  rw [horder, submatrix_id_id] at heq
  have hq : (st.factorize (Numerics.exact ε τ z) c).q.toMatrix = Householder.product qr.a n :=
    Householder.toMatrix_orthogonalFactor qr.a
  have hr : (st.factorize (Numerics.exact ε τ z) c).r.upper = qr.triangle := by
    ext i j
    change (Trapezoid.of fun j i => if j = i then qr.rdiag j else qr.a i j) j i = _
    rw [Trapezoid.of_apply, QR.triangle, Matrix.of_apply]
    rcases lt_trichotomy i j with hlt | rfl | hgt
    · rw [if_neg (show ¬ j.val < i.val from hlt.not_gt), if_neg hlt.ne',
        if_pos (show i.val < j.val from hlt)]
    · rw [if_neg (lt_irrefl _), if_pos rfl, if_neg (lt_irrefl _), if_pos rfl]
    · rw [if_pos (show j.val < i.val from hgt), if_neg (show ¬ i.val < j.val from hgt.not_gt),
        if_neg (Fin.val_ne_of_ne hgt.ne')]
  refine Represents.of_upper ?_ ?_ ?_
  · rw [hq]
    exact hfactors.orthogonal
  · rw [hq, hr, heq]
  · have hresiduals : (st.factorize (Numerics.exact ε τ z) c).residuals = st.residuals :=
      congrArg Position.residuals (position_factorize _ c st)
    rw [hq, hresiduals]
    exact Householder.applyTranspose_eq_mulVec qr.a st.residuals

/-! ### A rank-one update -/

/-- The rank-one update for the step `p`, along which the residuals change by `change`. -/
noncomputable def update (scale p change : Fin n → ℝ) (b : Matrix (Fin n) (Fin n) ℝ) :
    Matrix (Fin n) (Fin n) ℝ :=
  b + (∑ j, (scale j * p j) ^ 2)⁻¹ • vecMulVec (change - b *ᵥ p) fun j => scale j ^ 2 * p j

/-- The updated matrix maps the step to the change of the residuals. -/
theorem update_mulVec (scale p change : Fin n → ℝ) (b : Matrix (Fin n) (Fin n) ℝ)
    (hlength : ∑ j, (scale j * p j) ^ 2 ≠ 0) : update scale p change b *ᵥ p = change := by
  have hdot : (fun j => scale j ^ 2 * p j) ⬝ᵥ p = ∑ j, (scale j * p j) ^ 2 :=
    Finset.sum_congr rfl fun j _ => by ring
  rw [update, add_mulVec, smul_mulVec, vecMulVec_mulVec, hdot, op_smul_eq_smul, smul_smul,
    inv_mul_cancel₀ hlength, one_smul, add_sub_cancel]

/-- The product of the transposed orthogonal factor with the residuals at a proposed point. -/
noncomputable def State.observed (st : State ℝ n) (f : Vec ℝ n) : Vec ℝ n :=
  Vec.of fun j => sum fun i => st.q i j * f i

/-- The residuals at a trial point are observed in the basis of the orthogonal factor. -/
theorem State.observed_get (st : State ℝ n) (f : Vec ℝ n) :
    (st.observed f).get = st.q.toMatrixᵀ *ᵥ f.get := by
  funext j
  rw [observed, Vec.of_apply, Exact.sum_eq]
  rfl

/-- The update of the factors is an orthogonal transformation. -/
theorem broyden_factors (st : State ℝ n) (t : Proposal ℝ n) (model f : Vec ℝ n)
    (accepted : Bool) :
    ∃ G : Matrix (Fin n) (Fin n) ℝ, Gᵀ * G = 1 ∧
      (st.broyden (Numerics.exact ε τ z) t model f accepted).q.toMatrix = st.q.toMatrix * G ∧
      (st.broyden (Numerics.exact ε τ z) t model f accepted).r.upper =
        Gᵀ * (st.r.upper + vecMulVec (fun j => ((st.observed f) j - model j) / t.length)
          fun j => st.scale j * (st.scale j * t.step j / t.length)) ∧
      (st.broyden (Numerics.exact ε τ z) t model f accepted).rhs.get =
        Gᵀ *ᵥ (if accepted then st.observed f else st.rhs).get := by
  obtain ⟨G, horth, hs, happly⟩ := Trapezoid.rankOne_updates ε τ z (Nat.le_refl n) st.r
    (Vec.of fun j => st.scale j * (st.scale j * t.step j / t.length))
    (Vec.of fun j => ((st.observed f) j - model j) / t.length)
  refine ⟨G, horth, happly st.q, ?_, ?_⟩
  · -- the triangular factor is stored by columns, so the update is the one of its transpose
    have hupper := congrArg Matrix.transpose hs
    rw [transpose_mul, transpose_add, transpose_vecMulVec, Vec.get_of, Vec.get_of] at hupper
    exact hupper
  · -- the right hand side goes through the same rotations as a matrix with one row
    funext j
    have hrow := happly (Mat.ofRow (if accepted then st.observed f else st.rhs))
    have hentry := congrFun (congrFun hrow 0) j
    rw [Matrix.mul_apply] at hentry
    change ((_ : Mat ℝ 1 n).row 0) j = ∑ i, G i j * _
    rw [Mat.row_apply]
    refine hentry.trans (Finset.sum_congr rfl ?_)
    intro i _
    rw [Mat.toMatrix_apply, Mat.ofRow_apply, mul_comm]

/-! ### What a trial step does to the factors -/

section After

variable (nm : Numerics ℝ) (st : State ℝ n) (t : Proposal ℝ n) (f : Vec ℝ n)

/-- Deciding on a step changes neither the factors nor the scaling. -/
theorem after_factors :
    (st.after nm t f).q = st.q ∧ (st.after nm t f).r = st.r ∧ (st.after nm t f).rhs = st.rhs ∧
      (st.after nm t f).scale = st.scale := by
  rw [State.after]
  simp only [State.track, State.resize]
  split <;> split <;> exact ⟨rfl, rfl, rfl, rfl⟩

/-- The residuals move only with an accepted step. -/
theorem after_residuals :
    (st.after nm t f).residuals = if accepts nm st t f then f else st.residuals := by
  have hposition := congrArg Position.residuals (position_after nm st t f)
  rw [apply_ite Position.residuals] at hposition
  exact hposition

/-- The predicted residuals, multiplied by the transposed orthogonal factor. -/
theorem model_get (p : Vec ℝ n) : (st.model p).get = st.rhs.get + st.r.upper *ᵥ p.get := by
  funext i
  rw [State.model, Vec.of_apply, Exact.sumWhere_eq, Pi.add_apply, mulVec, dotProduct]
  congr 1
  refine Finset.sum_congr rfl ?_
  intro j _
  rw [Trapezoid.upper_apply]
  by_cases hij : i ≤ j
  · rw [if_pos hij]
  · rw [if_neg hij, st.r.apply_of_lt (Nat.not_le.1 hij), zero_mul]

end After

/-- The square of the scaled length of a step. -/
theorem scaledNorm_sq (d p : Vec ℝ n) :
    (Numerics.exact ε τ z).scaledNorm d p ^ 2 = ∑ j, (d j * p j) ^ 2 := by
  rw [Numerics.scaledNorm, Numerics.vecNorm_exact_sq]
  simp only [Vec.diagMul_apply]

/-- The change of the residuals along a step that `b` did not predict, from the factors: the
orthogonal factor times the difference of the observed and the predicted residuals. -/
theorem Represents.mulVec_change {st : State ℝ n} {b : Matrix (Fin n) (Fin n) ℝ}
    (h : Represents st b) (t : Proposal ℝ n) (f : Vec ℝ n) :
    st.q.toMatrix *ᵥ (fun j => ((st.observed f) j - st.model t.step j) / t.length) =
      t.length⁻¹ • (f.get - st.residuals.get - b *ᵥ t.step.get) := by
  have hQ : st.q.toMatrix * st.q.toMatrixᵀ = 1 := mul_eq_one_comm.1 h.orthogonal
  have hproduct := h.product
  rw [st.triangle_eq] at hproduct
  have hsmul : (fun j => ((st.observed f) j - st.model t.step j) / t.length) =
      t.length⁻¹ • ((st.observed f).get - (st.model t.step).get) := by
    funext j
    exact div_eq_inv_mul _ _
  rw [hsmul, mulVec_smul, st.observed_get, model_get, h.rhs, mulVec_sub, mulVec_add,
    mulVec_mulVec, mulVec_mulVec, mulVec_mulVec, hQ, hproduct, one_mulVec, one_mulVec, sub_sub]

/-- If the state before a step represents `b`, the updated state after it represents the update of
`b`, whether the step was accepted or not. -/
theorem Represents.broyden {st : State ℝ n} {b : Matrix (Fin n) (Fin n) ℝ} (h : Represents st b)
    {t : Proposal ℝ n} (f : Vec ℝ n)
    (hlength : t.length = (Numerics.exact ε τ z).scaledNorm st.scale t.step) :
    Represents
      ((st.after (Numerics.exact ε τ z) t f).broyden (Numerics.exact ε τ z) t (st.model t.step) f
        (accepts (Numerics.exact ε τ z) st t f))
      (update st.scale.get t.step.get (f.get - st.residuals.get) b) := by
  obtain ⟨hq, hr, hrhs, hscale⟩ := after_factors (Numerics.exact ε τ z) st t f
  obtain ⟨G, hG, hq', hr', hrhs'⟩ := broyden_factors ε τ z (st.after (Numerics.exact ε τ z) t f) t
    (st.model t.step) f (accepts (Numerics.exact ε τ z) st t f)
  have hobserved : (st.after (Numerics.exact ε τ z) t f).observed f = st.observed f := by
    rw [State.observed, State.observed, hq]
  have hGG : G * Gᵀ = 1 := mul_eq_one_comm.1 hG
  have hproduct := h.product
  rw [st.triangle_eq] at hproduct
  rw [hq] at hq'
  rw [hr, hscale, hobserved] at hr'
  rw [hrhs, hobserved] at hrhs'
  refine Represents.of_upper ?_ ?_ ?_
  · rw [hq']
    exact transpose_mul_mul_eq_one h.orthogonal hG
  · -- the rotation `G` cancels between the factors, and the length is inverted twice
    rw [hq', hr', Matrix.mul_assoc, ← Matrix.mul_assoc G, hGG, Matrix.one_mul, Matrix.mul_add,
      hproduct, mul_vecMulVec, h.mulVec_change t f, update]
    have hsq : t.length ^ 2 = ∑ j, (st.scale j * t.step j) ^ 2 := by
      rw [hlength, scaledNorm_sq]
    ext i j
    change _ = b i j + (∑ j, (st.scale j * t.step j) ^ 2)⁻¹ *
      ((f i - st.residuals i - (b *ᵥ t.step.get) i) * (st.scale j ^ 2 * t.step j))
    rw [← hsq]
    change b i j + t.length⁻¹ * (f i - st.residuals i - (b *ᵥ t.step.get) i) *
      (st.scale j * (st.scale j * t.step j / t.length)) = _
    ring
  · rw [hrhs', hq', transpose_mul, ← mulVec_mulVec]
    congr 1
    change _ = st.q.toMatrixᵀ *ᵥ (st.after (Numerics.exact ε τ z) t f).residuals.get
    rw [after_residuals]
    split
    · exact st.observed_get f
    · exact h.rhs

/-! ### The approximate Jacobian along a solve -/

section Course

variable (nm : Numerics ℝ) (c : Config ℝ) (budget : Nat) (p : Problem σ ℝ n n)
  (jac : Jacobian σ ℝ n)

/-- The step for which the approximate Jacobian is updated at a moment, with the residuals at its
point. There is none if the step ends the solve or if the Jacobian is given up after it. -/
noncomputable def update? (mo : Moment σ ℝ n (State ℝ n)) : Option (Proposal ℝ n × Vec ℝ n) :=
  match mo.stage with
  | .proposed t =>
    match p.evaluate t.point mo.world with
    | (.error _, _) => none
    | (.ok f, _) =>
      match mo.state.judge nm c budget t f with
      | (none, st) => if st.stale then none else some (t, f)
      | (some _, _) => none
  | _ => none

/-- The approximate Jacobian after a moment, if it was `b` before: if the Jacobian is computed
there, it is that one, and otherwise it changes by the update, if there is one. -/
noncomputable def follow (mo : Moment σ ℝ n (State ℝ n)) (b : Matrix (Fin n) (Fin n) ℝ) :
    Matrix (Fin n) (Fin n) ℝ :=
  match jacobianAt? jac mo, update? nm c budget p mo with
  | some a, _ => a.toMatrix
  | none, some (t, f) => update mo.state.scale.get t.step.get (f.get - mo.state.residuals.get) b
  | none, none => b

/-- The approximate Jacobian at the moments of a solve. It is of no meaning before the first one is
computed. -/
noncomputable def approximation (moments : Nat → Moment σ ℝ n (State ℝ n)) :
    Nat → Matrix (Fin n) (Fin n) ℝ
  | 0 => 0
  | k + 1 => follow nm c budget p jac (moments k) (approximation moments k)

variable {nm c budget p jac}

/-- Where the Jacobian is computed, the approximation becomes that matrix and forgets what it was
before. -/
theorem follow_of_jacobian {mo : Moment σ ℝ n (State ℝ n)} {a : Mat ℝ n n}
    (ha : jacobianAt? jac mo = some a) (b : Matrix (Fin n) (Fin n) ℝ) :
    follow nm c budget p jac mo b = a.toMatrix := by
  rw [follow, ha]

/-- At the beginning of a round there is no update. -/
theorem follow_of_ready {mo : Moment σ ℝ n (State ℝ n)} (hready : mo.stage = .ready)
    (hnone : jacobianAt? jac mo = none) (b : Matrix (Fin n) (Fin n) ℝ) :
    follow nm c budget p jac mo b = b := by
  have hupdate : update? nm c budget p mo = none := by rw [update?, hready]
  rw [follow, hnone, hupdate]

/-- A Jacobian is computed at the beginning of a round only, so there is none where one is
updated. -/
theorem follow_of_update {mo : Moment σ ℝ n (State ℝ n)} {t : Proposal ℝ n} {f : Vec ℝ n}
    (hupdate : update? nm c budget p mo = some (t, f)) (b : Matrix (Fin n) (Fin n) ℝ) :
    follow nm c budget p jac mo b =
      update mo.state.scale.get t.step.get (f.get - mo.state.residuals.get) b := by
  have hnone : jacobianAt? jac mo = none := by
    rw [jacobianAt?]
    split
    · next hready =>
      rw [update?, hready] at hupdate
      cases hupdate
    · rfl
  rw [follow, hnone, hupdate]

end Course

/-- A proposal is the step of its length from the iterate of a state. -/
def Proposal.From (nm : Numerics ℝ) (st : State ℝ n) (t : Proposal ℝ n) : Prop :=
  t.point.get = st.x.get + t.step.get ∧ t.length = nm.scaledNorm st.scale t.step

/-- At every moment the state represents `b`, unless the Jacobian is stale. -/
def Holds (nm : Numerics ℝ) (b : Matrix (Fin n) (Fin n) ℝ) (mo : Moment σ ℝ n (State ℝ n)) :
    Prop :=
  match mo.stage with
  | .ready => mo.state.stale = false → Represents mo.state b
  | .prepared => mo.state.stale = false ∧ Represents mo.state b
  | .proposed t => mo.state.stale = false ∧ Represents mo.state b ∧ Proposal.From nm mo.state t
  | .ended _ => True

variable {ε τ z} {c : Config ℝ} {budget : Nat} {p : Problem σ ℝ n n} {linearize : Linearize σ ℝ n}
  {jac : Jacobian σ ℝ n}

/-- If a Jacobian is available at the beginning of a round, the state represents it. -/
theorem Holds.refresh {mo : Moment σ ℝ n (State ℝ n)} {b : Matrix (Fin n) (Fin n) ℝ}
    {st : State ℝ n} {s : σ} (h : Holds (Numerics.exact ε τ z) b mo) (hready : mo.stage = .ready)
    (hok : refresh (Numerics.exact ε τ z) c linearize mo.state mo.world = (.ok (), st, s)) :
    st.stale = false ∧
      Represents st (follow (Numerics.exact ε τ z) c budget p linearize.jacobian mo b) := by
  obtain ⟨stage, st₀, s₀, base⟩ := mo
  obtain rfl : stage = .ready := hready
  rw [Equations.refresh] at hok
  by_cases hstale : st₀.stale = true
  · rw [if_pos hstale] at hok
    rcases hlin : linearize st₀ s₀ with ⟨e | _, st', s'⟩
    · rw [hlin] at hok
      cases hok
    · -- the state represents what the linearization has left
      rw [hlin] at hok
      cases hok
      rw [follow_of_jacobian (jacobianAt?_of_stale hstale hlin)]
      exact ⟨rfl, represents_factorize ε τ z c st'⟩
  · rw [if_neg hstale] at hok
    cases hok
    have hfresh : st₀.stale = false := Bool.eq_false_iff.2 hstale
    rw [follow_of_ready rfl (jacobianAt?_of_fresh hstale)]
    exact ⟨hfresh, h hfresh⟩

/-- A verdict after which the solve goes on updates the factors and the approximate Jacobian alike,
unless the Jacobian is given up. -/
theorem holds_judge {mo : Moment σ ℝ n (State ℝ n)} {b : Matrix (Fin n) (Fin n) ℝ}
    {t : Proposal ℝ n} {f : Vec ℝ n} {s : σ} (h : Holds (Numerics.exact ε τ z) b mo)
    (hstage : mo.stage = .proposed t) (heval : p.evaluate t.point mo.world = (.ok f, s))
    (hgo : (mo.state.judge (Numerics.exact ε τ z) c budget t f).1 = none)
    (hkept : (mo.state.judge (Numerics.exact ε τ z) c budget t f).2.stale = false) :
    Represents (mo.state.judge (Numerics.exact ε τ z) c budget t f).2
      (follow (Numerics.exact ε τ z) c budget p jac mo b) := by
  rw [Holds, hstage] at h
  obtain ⟨-, hrep, -, hlength⟩ := h
  have hupdate : update? (Numerics.exact ε τ z) c budget p mo = some (t, f) := by
    rcases hjudge : mo.state.judge (Numerics.exact ε τ z) c budget t f with ⟨r, st⟩
    rw [hjudge] at hgo hkept
    obtain rfl : r = none := hgo
    have hfresh : ¬ st.stale = true := Bool.eq_false_iff.1 hkept
    simp only [update?, hstage, heval, hjudge, if_neg hfresh]
  rw [follow_of_update hupdate]
  rw [judge_eq] at hgo hkept ⊢
  -- neither a reason to end nor a Jacobian given up, so the verdict goes on to the update
  rcases hstop : (mo.state.after (Numerics.exact ε τ z) t f).stop? (Numerics.exact ε τ z) c budget
    (accepts (Numerics.exact ε τ z) mo.state t f) t.length with _ | reason
  · rw [hstop] at hkept
    simp only [State.continued] at hkept ⊢
    by_cases hfail : (mo.state.after (Numerics.exact ε τ z) t f).failures = 2
    · rw [if_pos hfail] at hkept
      cases hkept
    · rw [if_neg hfail]
      exact hrep.broyden ε τ z f hlength
  · rw [hstop] at hgo
    cases hgo

/-- Every move keeps the factors true to the approximate Jacobian. -/
theorem Holds.next {mo : Moment σ ℝ n (State ℝ n)} {b : Matrix (Fin n) (Fin n) ℝ}
    (h : Holds (Numerics.exact ε τ z) b mo) :
    Holds (Numerics.exact ε τ z) (follow (Numerics.exact ε τ z) c budget p linearize.jacobian mo b)
      ((method (Numerics.exact ε τ z) c budget p linearize).next
        (accepts (Numerics.exact ε τ z)) p mo) := by
  have hjudge := @holds_judge σ n ε τ z c budget p linearize.jacobian mo b
  have hrefresh := @Holds.refresh σ n ε τ z c budget p linearize mo b
  obtain ⟨stage, st, s, base⟩ := mo
  cases stage with
  | ready =>
    rw [Method.next_ready]
    change Holds _ _ { stage := .ofPreparation (prepare _ c p linearize st s).1
                       state := (prepare _ c p linearize st s).2.1, world := _, base := _ }
    rcases hprep : (prepare (Numerics.exact ε τ z) c p linearize st s).1 with _ | reason
    · obtain ⟨s', hok⟩ := refresh_of_prepare hprep
      exact hrefresh h rfl hok
    · trivial
  | prepared =>
    -- a proposal concerns neither the factors nor the residuals
    obtain ⟨hfresh, hrep⟩ := h
    exact ⟨hfresh, ⟨hrep.orthogonal, hrep.triangular, hrep.product, hrep.rhs⟩, Vec.get_of _, rfl⟩
  | proposed t =>
    rcases heval : p.evaluate t.point s with ⟨e | f, s'⟩
    · rw [Method.next_proposed_of_error heval]
      trivial
    · rw [Method.next_proposed_of_ok heval]
      change Holds _ _ { stage := .ofVerdict (st.judge _ c budget t f).1
                         state := (st.judge _ c budget t f).2, world := _, base := _ }
      rcases hgo : (st.judge (Numerics.exact ε τ z) c budget t f).1 with _ | reason
      · exact fun hkept => hjudge h rfl heval hgo hkept
      · trivial
  | ended reason => trivial

/-! ### Solves -/

/-- The approximate Jacobian at the moments of a solve that gets the Jacobian `jac`. -/
noncomputable def approximationOf (nm : Numerics ℝ) (c : Config ℝ) (patience : Nat)
    (p : Problem σ ℝ n n) (linearize : Linearize σ ℝ n) (jac : Jacobian σ ℝ n) (x : Vec ℝ n)
    (s : σ) : Nat → Matrix (Fin n) (Fin n) ℝ :=
  approximation nm c (c.budget patience n) p jac (course nm c patience p linearize x s)

/-- A solve maintains the factors of the approximate Jacobian: where the Jacobian `jac` is computed,
it is that one; the factors are true to it whenever a round begins and a Jacobian is available; and
if it is updated for a step, it maps the step to the change of the residuals along it, unless the
step has length zero. The solve ends with the report on a moment of its course. -/
structure MaintainsFactors (nm : Numerics ℝ) (c : Config ℝ) (patience : Nat) (p : Problem σ ℝ n n)
    (linearize : Linearize σ ℝ n) (jac : Jacobian σ ℝ n) (x : Vec ℝ n) (s : σ) (rep : Report ℝ n) :
    Prop where
  computed (k : Nat) (a : Mat ℝ n n) :
    jacobianAt? jac (course nm c patience p linearize x s k) = some a →
    approximationOf nm c patience p linearize jac x s (k + 1) = a.toMatrix
  represents (k : Nat) (st : State ℝ n) (s' : σ) :
    (course nm c patience p linearize x s k).stage = .ready →
    refresh nm c linearize (course nm c patience p linearize x s k).state
      (course nm c patience p linearize x s k).world = (.ok (), st, s') →
    Represents st (approximationOf nm c patience p linearize jac x s (k + 1))
  secant (k : Nat) (t : Proposal ℝ n) (f : Vec ℝ n) :
    update? nm c (c.budget patience n) p (course nm c patience p linearize x s k) = some (t, f) →
    Proposal.From nm (course nm c patience p linearize x s k).state t ∧
      (t.length ≠ 0 →
        approximationOf nm c patience p linearize jac x s (k + 1) *ᵥ t.step.get =
          f.get - (course nm c patience p linearize x s k).state.residuals.get)
  reported : ∃ k reason, (course nm c patience p linearize x s k).stage = .ended reason ∧
    rep = (course nm c patience p linearize x s k).state.report reason

section Run

variable {patience : Nat} {x : Vec ℝ n} {s : σ}

/-- At every moment of a solve the factors are true to the approximate Jacobian. -/
theorem holds_course (k : Nat) :
    Holds (Numerics.exact ε τ z)
      (approximationOf (Numerics.exact ε τ z) c patience p linearize linearize.jacobian x s k)
      (course (Numerics.exact ε τ z) c patience p linearize x s k) := by
  rcases hc : c.fault? n with _ | e
  · rw [approximationOf, course_eq hc]
    induction k with
    | zero =>
      -- nothing is represented before the first round, and the Jacobian is stale then
      rcases heval : (Iterate.start c.toSettings x).evaluate (Numerics.exact ε τ z) p s
        with ⟨_ | reason, it, s'⟩
      · simp only [Method.course_zero, Method.opening, heval]
        exact fun hfresh => by cases hfresh
      · simp only [Method.course_zero, Method.opening, heval]
        trivial
    | succ k ih =>
      rw [Method.course_succ]
      exact ih.next
  · have hcourse : course (Numerics.exact ε τ z) c patience p linearize x s =
        fun _ => { stage := .ended (.invalidInput e)
                   state := .ofIterate (.start c.toSettings x)
                   world := s
                   base := x } := by
      rw [course, hc]
    rw [hcourse]
    trivial

/-- An update for a step that is not of length zero maps it to the change of the residuals. -/
theorem Holds.secant {mo : Moment σ ℝ n (State ℝ n)} {b : Matrix (Fin n) (Fin n) ℝ}
    {t : Proposal ℝ n} {f : Vec ℝ n} (h : Holds (Numerics.exact ε τ z) b mo)
    (hupdate : update? (Numerics.exact ε τ z) c budget p mo = some (t, f)) :
    Proposal.From (Numerics.exact ε τ z) mo.state t ∧
      (t.length ≠ 0 → follow (Numerics.exact ε τ z) c budget p jac mo b *ᵥ t.step.get =
        f.get - mo.state.residuals.get) := by
  rw [follow_of_update hupdate]
  rcases hstage : mo.stage with _ | _ | t' | reason
  all_goals
    rw [Holds, hstage] at h
    simp only [update?, hstage] at hupdate
  · cases hupdate
  · cases hupdate
  · -- only a proposal whose verdict goes on has an update, which is that for its own step
    have ht : t' = t := by
      rcases heval : p.evaluate t'.point mo.world with ⟨e | f', s'⟩
      · rw [heval] at hupdate
        cases hupdate
      · rcases hjudge : mo.state.judge (Numerics.exact ε τ z) c budget t' f' with ⟨_ | reason, st⟩
        · simp only [heval, hjudge] at hupdate
          split at hupdate
          · cases hupdate
          · cases hupdate
            rfl
        · simp only [heval, hjudge] at hupdate
          cases hupdate
    subst ht
    obtain ⟨-, -, hfrom⟩ := h
    refine ⟨hfrom, fun hne => update_mulVec _ _ _ _ ?_⟩
    have hsq := scaledNorm_sq ε τ z mo.state.scale t'.step
    rw [← hfrom.2] at hsq
    have hpos : t'.length ^ 2 ≠ 0 := pow_ne_zero 2 hne
    rw [hsq] at hpos
    exact hpos
  · cases hupdate

/-- Every solve maintains the factors of the approximate Jacobian. -/
theorem maintainsFactors_run (hl : linearize.Recounts) (hpat : 0 < patience) :
    MaintainsFactors (Numerics.exact ε τ z) c patience p linearize linearize.jacobian x s
      (run (Numerics.exact ε τ z) c patience p linearize x s).1 where
  computed k a ha := follow_of_jacobian ha _
  represents k st s' hready hok := ((holds_course k).refresh hready hok).2
  secant k t f hupdate := (holds_course k).secant hupdate
  reported := by
    obtain ⟨k, hend⟩ := exists_course_report (Numerics.exact ε τ z) c p x s hl hpat
    obtain ⟨hstage, hreport⟩ := hend k (Nat.le_refl k)
    exact ⟨k, _, hstage, hreport.symm⟩

end Run

end Equations

end NonlinearSolve

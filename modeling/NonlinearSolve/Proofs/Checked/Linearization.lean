import NonlinearSolve.LeastSquares.Linearization
import NonlinearSolve.Proofs.Checked.Factorization
import NonlinearSolve.Proofs.Checked.Rotations

/-! # Checked linearizations

The three linearizations written with checked operations. In exact arithmetic none of them divides
by zero or takes the root of a negative number, whatever the Jacobian is. Forward differences need a
positive precision for that, which bounds the displacements away from zero. -/

namespace NonlinearSolve

open Scalar

/-! ### Algorithms -/

section Algorithms

variable {σ α : Type} [Scalar α] {m n : Nat}

namespace ForwardDifference

/-- `relativeStep` with checked operations. -/
def relativeStep? (nm : Numerics α) (epsfcn : α) : Option α := sqrt? (maxNum epsfcn nm.epsilon)

/-- `quotients` with checked operations. -/
def quotients? (eps : α) (x : Vec α n) (fvec f : Vec α m) (j : Fin n) : Option (Vec α m) :=
  let h := displacement eps (x j)
  Vec.of? fun i => div? (f i - fvec i) h

/-- `fill` with checked operations. -/
def fill? (eps : α) (write : Writer α m n) (x : Vec α n) (fvec f : Vec α m)
    (group : Fin n → Bool) (a : Mat α m n) : Option (Mat α m n) :=
  Mat.ofCols? fun j =>
    if group j then do
      let q ← quotients? eps x fvec f j
      return write j q (a.col j)
    else some (a.col j)

/-- `sweep` with checked operations. -/
def sweep? (p : Problem σ α m n) (eps : α) (write : Writer α m n) (fvec : Vec α m) :
    List (Fin n → Bool) → Vec α n → Mat α m n → σ →
      Option (Except Abort Unit × Vec α n × Mat α m n × σ)
  | [], x, a, s => some (.ok (), x, a, s)
  | group :: groups, x, a, s =>
    let y := displaced eps group x
    match p.evaluate y s with
    | (.error e, s) => some (.error e, restored group x y, a, s)
    | (.ok f, s) => do
      let x := restored group x y
      let a ← fill? eps write x fvec f group a
      sweep? p eps write fvec groups x a s

/-- `dense` with checked operations. -/
def dense? (p : Problem σ α m n) (nm : Numerics α) (epsfcn : α) (x : Vec α n) (fvec : Vec α m)
    (a : Mat α m n) (s : σ) : Option (Except Abort Unit × Vec α n × Mat α m n × σ) := do
  let eps ← relativeStep? nm epsfcn
  sweep? p eps (fun _ q _ => q) fvec (singletons n) x a s

end ForwardDifference

namespace LeastSquares

/-- A linearization with checked operations. -/
abbrev Linearize? (σ α : Type) (m r n : Nat) :=
  State α m r n → σ → Option (Except Abort (Vec α n) × State α m r n × σ)

/-- `factorize` with checked operations. -/
def State.factorize? (nm : Numerics α) (h : n ≤ m) (st : State α m m n) (jac : Mat α m n) :
    Option (Vec α n × State α m m n) := do
  let qr ← QR.factor? nm true jac
  let qtf ← Householder.applyTranspose? qr.a st.residuals
  return (qr.colNorm,
    { st with
      factor := qr.a.withDiagonal qr.rdiag
      order := qr.order
      rhs := qtf.leading h
      jacobians := st.jacobians + 1 })

/-- `analytic` with checked operations. -/
def analytic? (nm : Numerics α) (h : n ≤ m) (p : JacobianProblem σ α m n) :
    Linearize? σ α m m n :=
  fun st s =>
    match p.jacobian st.x s with
    | (.error e, s) => some (.error e, st, s)
    | (.ok jac, s) => do
      let (norms, st) ← st.factorize? nm h jac
      return (.ok norms, st, s)

/-- `numerical` with checked operations. -/
def numerical? (nm : Numerics α) (h : n ≤ m) (c : Settings α) (p : Problem σ α m n) :
    Linearize? σ α m m n :=
  fun st s => do
    match ← ForwardDifference.dense? p nm c.epsfcn st.x st.residuals st.factor s with
    | (.error e, x, a, s) => return (.error e, { st with x, factor := a }, s)
    | (.ok _, x, a, s) =>
      let (norms, st) ← { st with x, evaluations := st.evaluations + n }.factorize? nm h a
      return (.ok norms, st, s)

/-- `foldRows` with checked operations. -/
def foldRows? (p : RowProblem σ α m n) (x : Vec α n) (residuals : Vec α m) :
    List (Fin m) → Mat α n n → Vec α n → σ →
      Option (Except Abort Unit × Mat α n n × Vec α n × σ)
  | [], r, b, s => some (.ok (), r, b, s)
  | i :: rows, r, b, s =>
    match p.jacobianRow x i s with
    | (.error e, s) => some (.error e, r, b, s)
    | (.ok w, s) => do
      let u ← rowUpdate? r w b (residuals i)
      foldRows? p x residuals rows u.r u.b s

/-- `settle` with checked operations. -/
def State.settle? (nm : Numerics α) (st : State α m n n) : Option (Vec α n × State α m n n) := do
  let st := { st with jacobians := st.jacobians + 1 }
  if st.factor.diagonal.firstZero < n then
    let qr ← QR.factor? nm true st.factor
    let rhs ← Householder.applyTranspose? qr.a st.rhs
    return (qr.colNorm,
      { st with factor := qr.a.withDiagonal qr.rdiag, order := qr.order, rhs })
  else
    return (Vec.of fun j => nm.norm ((st.factor.col j).toList.take (j + 1)),
      { st with order := Vec.identity n })

/-- `rowwise` with checked operations. -/
def rowwise? (nm : Numerics α) (p : RowProblem σ α m n) : Linearize? σ α m n n :=
  fun st s => do
    match ← foldRows? p st.x st.residuals (List.finRange m) (Mat.zero n n) (Vec.zero n) s with
    | (.error e, r, b, s) => return (.error e, { st with factor := r, rhs := b }, s)
    | (.ok _, r, b, s) =>
      let (norms, st) ← { st with factor := r, rhs := b }.settle? nm
      return (.ok norms, st, s)

end LeastSquares

end Algorithms

variable {σ : Type} {m n : Nat} {ε τ : ℝ} {z : Bool}

/-! ### Forward differences -/

namespace ForwardDifference

/-- The displacement of a variable is nonzero, also where the variable is zero. -/
theorem displacement_ne_zero {eps : ℝ} (heps : eps ≠ 0) (x : ℝ) : displacement eps x ≠ 0 := by
  unfold displacement
  simp only
  split
  · exact heps
  · next hzero => exact mt (Exact.beq_iff _ _).2 hzero

/-- The difference quotients of one group of columns divide by displacements. -/
theorem fill?_eq {eps : ℝ} (heps : eps ≠ 0) (write : Writer ℝ m n) (x : Vec ℝ n)
    (fvec f : Vec ℝ m) (group : Fin n → Bool) (a : Mat ℝ m n) :
    fill? eps write x fvec f group a = some (fill eps write x fvec f group a) := by
  unfold fill? fill quotients? quotients
  simp only [div?_eq _ (displacement_ne_zero heps _), Vec.of?_some, Option.bind_eq_bind,
    Option.bind_some, Option.pure_def, ← apply_ite some, Mat.ofCols?_some]

/-- A sweep of differences is checked, whatever the callbacks answer. -/
theorem sweep?_eq (p : Problem σ ℝ m n) {eps : ℝ} (heps : eps ≠ 0) (write : Writer ℝ m n)
    (fvec : Vec ℝ m) (groups : List (Fin n → Bool)) (x : Vec ℝ n) (a : Mat ℝ m n) (s : σ) :
    sweep? p eps write fvec groups x a s = some (sweep p eps write fvec groups x a s) := by
  induction groups generalizing x a s with
  | nil => rfl
  | cons group groups ih =>
    rw [sweep?, sweep]
    rcases p.evaluate (displaced eps group x) s with ⟨e | f, s'⟩
    · rfl
    · simp only [fill?_eq heps, ih, Option.bind_eq_bind, Option.bind_some]

/-- Dense differences are checked: their relative step is the root of a positive number. -/
theorem dense?_eq (p : Problem σ ℝ m n) (hε : 0 < ε) (epsfcn : ℝ) (x : Vec ℝ n) (fvec : Vec ℝ m)
    (a : Mat ℝ m n) (s : σ) :
    dense? p (Numerics.exact ε τ z) epsfcn x fvec a s =
      some (dense p (Numerics.exact ε τ z) epsfcn x fvec a s) := by
  have hmax : 0 < maxNum epsfcn (Numerics.exact ε τ z).epsilon := by
    rw [Exact.maxNum_eq]
    exact lt_max_of_lt_right hε
  have hstep : sqrt (maxNum epsfcn (Numerics.exact ε τ z).epsilon) ≠ 0 := (Real.sqrt_pos.2 hmax).ne'
  unfold dense? relativeStep?
  rw [sqrt?_eq hmax.le, Option.bind_eq_bind, Option.bind_some, sweep?_eq p hstep]
  rfl

end ForwardDifference

/-! ### The linearizations -/

namespace LeastSquares

/-- The linearization `linearize` never fails, as `linearize?` is the same with checked
operations. -/
def Linearize?.Agrees {r : Nat} (linearize? : Linearize? σ ℝ m r n)
    (linearize : Linearize σ ℝ m r n) : Prop :=
  ∀ st s, linearize? st s = some (linearize st s)

/-- A Jacobian is factored without an undefined operation, whatever its entries are. -/
@[simp] theorem State.factorize?_eq (h : n ≤ m) (st : State ℝ m m n) (jac : Mat ℝ m n) :
    st.factorize? (Numerics.exact ε τ z) h jac =
      some (st.factorize (Numerics.exact ε τ z) h jac) := by
  unfold factorize? factorize
  simp only [QR.factor?_eq, Householder.applyTranspose?_eq, Option.bind_eq_bind, Option.bind_some,
    Option.pure_def]

/-- Linearizing with the Jacobian of the problem is checked. -/
theorem agrees_analytic (h : n ≤ m) (p : JacobianProblem σ ℝ m n) :
    Linearize?.Agrees (analytic? (Numerics.exact ε τ z) h p)
      (analytic (Numerics.exact ε τ z) h p) := by
  intro st s
  unfold analytic? analytic
  rcases p.jacobian st.x s with ⟨e | jac, s'⟩
  · rfl
  · simp only [State.factorize?_eq, Option.bind_eq_bind, Option.bind_some, Option.pure_def]

/-- Linearizing by differences is checked. -/
theorem agrees_numerical (hε : 0 < ε) (h : n ≤ m) (c : Settings ℝ) (p : Problem σ ℝ m n) :
    Linearize?.Agrees (numerical? (Numerics.exact ε τ z) h c p)
      (numerical (Numerics.exact ε τ z) h c p) := by
  intro st s
  unfold numerical? numerical
  rw [ForwardDifference.dense?_eq p hε, Option.bind_eq_bind, Option.bind_some]
  rcases ForwardDifference.dense p (Numerics.exact ε τ z) c.epsfcn st.x st.residuals st.factor s
    with ⟨e | _, x, a, s'⟩
  · rfl
  · simp only [State.factorize?_eq, Option.bind_eq_bind, Option.bind_some, Option.pure_def]

/-- Folding rows into a triangular factor is checked for any rows. -/
theorem foldRows?_eq (p : RowProblem σ ℝ m n) (x : Vec ℝ n) (residuals : Vec ℝ m)
    (rows : List (Fin m)) (r : Mat ℝ n n) (b : Vec ℝ n) (s : σ) :
    foldRows? p x residuals rows r b s = some (foldRows p x residuals rows r b s) := by
  induction rows generalizing r b s with
  | nil => rfl
  | cons i rows ih =>
    rw [foldRows?, foldRows]
    rcases p.jacobianRow x i s with ⟨e | w, s'⟩
    · rfl
    · simp only [rowUpdate?_eq, ih, Option.bind_eq_bind, Option.bind_some]

/-- The streamed factor is settled without an undefined operation, with or without pivoting. -/
@[simp] theorem State.settle?_eq (st : State ℝ m n n) :
    st.settle? (Numerics.exact ε τ z) = some (st.settle (Numerics.exact ε τ z)) := by
  unfold settle? settle
  simp only [QR.factor?_eq, Householder.applyTranspose?_eq, Option.bind_eq_bind, Option.bind_some,
    Option.pure_def, ← apply_ite some]

/-- Linearizing row by row is checked. -/
theorem agrees_rowwise (p : RowProblem σ ℝ m n) :
    Linearize?.Agrees (rowwise? (Numerics.exact ε τ z) p) (rowwise (Numerics.exact ε τ z) p) := by
  intro st s
  unfold rowwise? rowwise
  rw [foldRows?_eq, Option.bind_eq_bind, Option.bind_some]
  rcases foldRows p st.x st.residuals (List.finRange m) (Mat.zero n n) (Vec.zero n) s with
    ⟨e | _, r, b, s'⟩
  · rfl
  · simp only [State.settle?_eq, Option.bind_eq_bind, Option.bind_some, Option.pure_def]

end LeastSquares

end NonlinearSolve

import NonlinearSolve.Proofs.Undefined.Binary64
import NonlinearSolve.Proofs.Undefined.Rejection

/-! # Undefined residuals in every solver

In every arithmetic that propagates undefined numbers and keeps signs, binary64 among them, a norm
shows whether a component is undefined, and both methods reject steps to points where a residual is
(`solvers_reject_undefined`). -/

namespace NonlinearSolve

open Scalar

/-- If the norm is one in bands, then it is undefined for vectors with an undefined component, and
both methods reject steps to points with an undefined residual, in whatever state they are. -/
theorem solvers_reject_undefined {σ α : Type} [Scalar α] [KeepsSigns α] {m r n : Nat}
    {nm : Numerics α} {b : Bands α} (hnm : nm.norm = b.norm) :
    (∀ xs : List α, (∃ x ∈ xs, IsUndefined x) → IsUndefined (nm.norm xs)) ∧
    (∀ (c : LeastSquares.Config α) (budget : Nat) (h : n ≤ r) (p : Problem σ α m n)
        (linearize : LeastSquares.Linearize σ α m r n),
      (LeastSquares.method nm c budget h p linearize).RejectsUndefined
        (LeastSquares.accepts nm h)) ∧
    (∀ (c : Equations.Config α) (budget : Nat) (p : Problem σ α n n)
        (linearize : Equations.Linearize σ α n),
      (Equations.method nm c budget p linearize).RejectsUndefined (Equations.accepts nm)) := by
  refine ⟨?_, LeastSquares.rejectsUndefined_method hnm, Equations.rejectsUndefined_method hnm⟩
  intro xs hxs
  rw [hnm]
  exact b.isUndefined_norm hxs

/-- A problem whose residual is nowhere defined. -/
def nowhereDefined : Problem Unit Float 1 1 where
  evaluate _ s := (.ok (Vec.const 1 nan), s)

/-- In binary64 both methods stay where they are when the residual is undefined. -/
theorem solvers_reject_undefined_binary64 :
    let nm := Numerics.binary64
    let c := LeastSquares.Config.default nm
    let d := Equations.Config.default nm
    let start : Iterate Float 1 1 := .start c.toSettings (Vec.const 1 1)
    let it := { start with residuals := Vec.const 1 1, residualNorm := 1 }
    let levenbergMarquardt := LeastSquares.method nm c 100 (Nat.le_refl 1) nowhereDefined
      (LeastSquares.numerical nm (Nat.le_refl 1) c.toSettings nowhereDefined)
    let hybrid := Equations.method nm d 100 nowhereDefined (Equations.numerical nm d nowhereDefined)
    IsUndefined (nm.norm [1, nan]) ∧
      (∃ radius, (levenbergMarquardt.attempt nowhereDefined (.ofIterate it) ()).2.1.toIterate =
        { it with radius, evaluations := 1 }) ∧
      (∃ radius, (hybrid.attempt nowhereDefined (.ofIterate it) ()).2.1.toIterate =
        { it with radius, evaluations := 1 }) := by
  intro nm c d start it levenbergMarquardt hybrid
  have hnan : IsUndefined (nan : Float) := by
    rw [IsUndefined]
    decide
  have hresidual : ∃ i, IsUndefined ((Vec.const 1 (nan : Float)) i) :=
    ⟨0, by rw [Vec.const_apply]; exact hnan⟩
  obtain ⟨hnorm, hleast, hequations⟩ := solvers_reject_undefined (σ := Unit) (m := 1) (r := 1)
    (n := 1) (show nm.norm = Bands.norm _ from rfl)
  refine ⟨hnorm _ ⟨nan, List.mem_cons_of_mem _ List.mem_cons_self, hnan⟩, ?_, ?_⟩
  · exact (hleast c 100 _ nowhereDefined _).iterate nowhereDefined (.ofIterate it) () () _ rfl
      hresidual
  · exact (hequations d 100 nowhereDefined _).iterate nowhereDefined (.ofIterate it) () () _ rfl
      hresidual

end NonlinearSolve

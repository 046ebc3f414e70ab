import NonlinearSolve.Proofs.TrustRegion.Subproblem

/-! # The course of a search

A search for the damping refines its bracket with every probe until one is accepted.
`Subproblem.trail` lists the brackets as they would follow if no probe were accepted, so what every
refinement keeps holds along the whole trail. The search itself ends somewhere on it
(`Subproblem.exists_endsAt`), and so does a solution, unless the Gauss-Newton step is short enough
(`Subproblem.solve_cases`). -/

namespace NonlinearSolve

open Scalar

variable {n : Nat}

namespace Subproblem

section Search

variable {α : Type} [Scalar α] (sp : Subproblem α n) (nm : Numerics α)

/-- The brackets of a search that accepts no probe. -/
def trail (b : Bracket α) : Nat → Bracket α
  | 0 => b
  | i + 1 => sp.refine nm (trail b i) (sp.probe nm (trail b i))

/-- The trail from the second bracket on. -/
theorem trail_refine (b : Bracket α) (i : Nat) :
    sp.trail nm (sp.refine nm b (sp.probe nm b)) i = sp.trail nm b (i + 1) := by
  induction i with
  | zero => rfl
  | succ i ih => rw [trail, ih, ← trail]

/-- Whether the probe at position `i` of the trail is accepted. -/
def acceptsAt (b : Bracket α) (i : Nat) : Bool :=
  sp.accepts (sp.trail nm b i) (sp.probe nm (sp.trail nm b i))

/-- The probes from the second bracket on. -/
theorem acceptsAt_refine (b : Bracket α) (i : Nat) :
    sp.acceptsAt nm (sp.refine nm b (sp.probe nm b)) i = sp.acceptsAt nm b (i + 1) := by
  rw [acceptsAt, acceptsAt, trail_refine]

/-- A search with at most `limit + 1` probes ends with the one at position `last`: no earlier one is
accepted, and it is accepted itself or there is none left. -/
structure EndsAt (b : Bracket α) (limit last : Nat) : Prop where
  le : last ≤ limit
  goesOn (i : Nat) : i < last → sp.acceptsAt nm b i = false
  accepts : last < limit → sp.acceptsAt nm b last = true

/-- Every search ends with one of the probes on its trail. -/
theorem exists_endsAt (k : Nat) (b : Bracket α) :
    ∃ last, sp.EndsAt nm b k last ∧ sp.search nm k b = sp.probe nm (sp.trail nm b last) := by
  -- the number of probes left is generalized over the bracket, which every probe refines
  induction k generalizing b with
  | zero => exact ⟨0, ⟨le_rfl, fun i hi => absurd hi (Nat.not_lt_zero i), fun hlt => absurd hlt
      (lt_irrefl 0)⟩, rfl⟩
  | succ k ih =>
    rw [search_succ]
    by_cases hacc : sp.accepts b (sp.probe nm b) = true
    · refine ⟨0, ⟨Nat.zero_le _, fun i hi => absurd hi (Nat.not_lt_zero i), fun _ => hacc⟩, ?_⟩
      simp only [if_pos hacc]
      rfl
    · obtain ⟨last, hends, hsearch⟩ := ih (sp.refine nm b (sp.probe nm b))
      refine ⟨last + 1, ⟨Nat.succ_le_succ hends.le, ?_, ?_⟩, ?_⟩
      · rintro (_ | i) hi
        · exact Bool.eq_false_of_not_eq_true hacc
        · rw [← acceptsAt_refine]
          exact hends.goesOn i (Nat.lt_of_succ_lt_succ hi)
      · intro hlt
        rw [← acceptsAt_refine]
        exact hends.accepts (Nat.lt_of_succ_lt_succ hlt)
      · simp only [if_neg hacc, hsearch, trail_refine]

/-! ### Solutions -/

/-- The bracket with which the search begins. -/
def firstBracket (estimate : α) : Bracket α :=
  sp.bracket nm estimate (sp.scale.diagMul sp.gaussNewton) (nm.scaledNorm sp.scale sp.gaussNewton)

/-- What is returned if the search ends with the probe `p`. -/
def Probe.toDampedStep (p : Probe α n) : DampedStep α n :=
  { damping := p.damping, step := p.solution.x, sdiag := p.solution.sdiag, r := p.solution.r }

/-- A solution is the Gauss-Newton step without damping, if that is short enough, and else a probe
on the trail of the search. -/
theorem solve_cases (estimate : α) :
    (nm.scaledNorm sp.scale sp.gaussNewton - sp.radius ≤ 0.1 * sp.radius ∧
      sp.solve nm estimate =
        { damping := 0, step := sp.gaussNewton, sdiag := Vec.zero n, r := sp.r }) ∨
    (¬ nm.scaledNorm sp.scale sp.gaussNewton - sp.radius ≤ 0.1 * sp.radius ∧
      ∃ last, sp.EndsAt nm (sp.firstBracket nm estimate) 9 last ∧ sp.solve nm estimate =
        (sp.probe nm (sp.trail nm (sp.firstBracket nm estimate) last)).toDampedStep) := by
  by_cases hshort : nm.scaledNorm sp.scale sp.gaussNewton - sp.radius ≤ 0.1 * sp.radius
  · exact .inl ⟨hshort, if_pos hshort⟩
  · obtain ⟨last, hends, hsearch⟩ := sp.exists_endsAt nm 9 (sp.firstBracket nm estimate)
    refine .inr ⟨hshort, last, hends, (if_neg hshort).trans ?_⟩
    rw [← hsearch]
    rfl

end Search

/-! ### Positive dampings -/

variable {sp : Subproblem ℝ n} {ε τ : ℝ} {z : Bool}

/-- Nothing is negative on a trail that starts so. -/
theorem Bracket.Nonneg.trail (sp : Subproblem ℝ n) (nm : Numerics ℝ) {b : Bracket ℝ}
    (hb : b.Nonneg) (i : Nat) : (sp.trail nm b i).Nonneg := by
  induction i with
  | zero => exact hb
  | succ i ih => exact ih.refine _

/-- The search begins with a bracket that is not negative, if the Gauss-Newton step is too long. -/
theorem nonneg_firstBracket (hτ : 0 < τ) (hradius : 0 ≤ sp.radius)
    (hlong : ¬ (Numerics.exact ε τ z).scaledNorm sp.scale sp.gaussNewton - sp.radius ≤
      0.1 * sp.radius) (estimate : ℝ) :
    (sp.firstBracket (Numerics.exact ε τ z) estimate).Nonneg :=
  nonneg_bracket hτ sp estimate _ hradius (radius_le_of_long hradius hlong)

end Subproblem

end NonlinearSolve

import NonlinearSolve.Proofs.Course.Moments

/-! # Checked solves

A method whose parts may fail (`CheckedMethod`) makes up a solve that fails as soon as one of them
does. If its parts agree with those of a method at every moment of the course of a solve, then the
checked solve does not fail and ends in the same way (`CheckedMethod.Agrees.run?_eq`). What may be
assumed of a moment is an invariant of the course. -/

namespace NonlinearSolve

/-- A trust region method that may fail in each of its parts. -/
structure CheckedMethod (σ α : Type) (m n : Nat) (τ : Type) where
  /-- The state of the method at the starting point. -/
  start : Iterate α m n → τ
  /-- The iterate in a state. -/
  iterate : τ → Iterate α m n
  /-- `Method.prepare`, unless it fails. -/
  prepare? : τ → σ → Option (Option Termination × τ × σ)
  /-- `Method.propose`, unless it fails. -/
  propose? : τ → Option (Proposal α n × τ)
  /-- `Method.judge`, unless it fails. -/
  judge? : τ → Proposal α n → Vec α m → Option (Option Termination × τ)

/-- `repeatRound` for rounds that may fail. -/
def repeatRound? {τ : Type} (round? : τ → Option (Option Termination × τ)) :
    Nat → τ → Option (Termination × τ)
  | 0, t => some (.lostPatience, t)
  | k + 1, t => do
    match ← round? t with
    | (some reason, t) => return (reason, t)
    | (none, t) => repeatRound? round? k t

namespace CheckedMethod

variable {σ α τ : Type} {m n : Nat}

/-- `Method.attempt` by parts that may fail. -/
def attempt? (me : CheckedMethod σ α m n τ) (p : Problem σ α m n) (st : τ) (s : σ) :
    Option (Option Termination × τ × σ) := do
  let (t, st) ← me.propose? st
  match p.evaluate t.point s with
  | (.error e, s) => return (some (.user e), st, s)
  | (.ok residuals, s) =>
    let (reason, st) ← me.judge? st t residuals
    return (reason, st, s)

/-- `Method.round` by parts that may fail. -/
def round? (me : CheckedMethod σ α m n τ) (p : Problem σ α m n) (t : τ × σ) :
    Option (Option Termination × τ × σ) := do
  match ← me.prepare? t.1 t.2 with
  | (some reason, st, s) => return (some reason, st, s)
  | (none, st, s) => me.attempt? p st s

section Solves

variable [Scalar α]

/-- `Method.solve` by parts that may fail. -/
def solve? (me : CheckedMethod σ α m n τ) (nm : Numerics α) (c : Settings α) (budget : Nat)
    (p : Problem σ α m n) (x : Vec α n) (s : σ) : Option (Termination × τ × σ) :=
  match (Iterate.start c x).evaluate nm p s with
  | (some reason, it, s) => some (reason, me.start it, s)
  | (none, it, s) => repeatRound? (me.round? p) budget (me.start it, s)

/-- `Method.run` by parts that may fail. -/
def run? (me : CheckedMethod σ α m n τ) (nm : Numerics α) (c : Settings α) (budget : Nat)
    (p : Problem σ α m n) (x : Vec α n) (s : σ) : Option (Termination × τ × σ) := do
  let (reason, st, s) ← me.solve? nm c budget p x s
  if 0 < c.reportEvery then
    let it := me.iterate st
    return (reason, st, (p.report it.iteration it.x it.residuals s).2)
  else return (reason, st, s)

end Solves

/-! ### Agreement -/

/-- The checked method agrees with a method at all moments that are sound. -/
structure Agrees (me? : CheckedMethod σ α m n τ) (me : Method σ α m n τ)
    (sound : Moment σ α n τ → Prop) : Prop where
  start : me?.start = me.start
  iterate : me?.iterate = me.iterate
  prepare (st : τ) (s : σ) (b : Vec α n) : sound ⟨.ready, st, s, b⟩ →
    me?.prepare? st s = some (me.prepare st s)
  propose (st : τ) (s : σ) (b : Vec α n) : sound ⟨.prepared, st, s, b⟩ →
    me?.propose? st = some (me.propose st)
  judge (t : Proposal α n) (st : τ) (s : σ) (b : Vec α n) : sound ⟨.proposed t, st, s, b⟩ →
    ∀ f, me?.judge? st t f = some (me.judge st t f)

variable {me? : CheckedMethod σ α m n τ} {me : Method σ α m n τ} {sound : Moment σ α n τ → Prop}
  {accepts : Acceptance τ α m n} {p : Problem σ α m n} (h : Agrees me? me sound)
  (hnext : ∀ mo, sound mo → sound (me.next accepts p mo))

include h hnext

/-- A checked method that agrees makes the same attempt from a sound prepared moment. -/
theorem Agrees.attempt?_eq {st : τ} {s : σ} {b : Vec α n} (hst : sound ⟨.prepared, st, s, b⟩) :
    me?.attempt? p st s = some (me.attempt p st s) := by
  have hproposed := hnext _ hst
  rw [Method.next_prepared] at hproposed
  unfold attempt? Method.attempt
  rw [h.propose st s b hst, Option.bind_eq_bind, Option.bind_some]
  rcases hprop : me.propose st with ⟨t, st'⟩
  rw [hprop] at hproposed
  simp only
  rcases p.evaluate t.point s with ⟨e | f, s'⟩
  · rfl
  · simp only [h.judge t st' s b hproposed f, Option.bind_eq_bind, Option.bind_some,
      Option.pure_def]

/-- A checked method that agrees makes the same round from a sound moment. -/
theorem Agrees.round?_eq {st : τ} {s : σ} {b : Vec α n} (hst : sound ⟨.ready, st, s, b⟩) :
    me?.round? p (st, s) = some (me.round p (st, s)) := by
  have hprepared := hnext _ hst
  rw [Method.next_ready] at hprepared
  unfold round? Method.round
  rw [h.prepare st s b hst, Option.bind_eq_bind, Option.bind_some]
  rcases hprep : me.prepare st s with ⟨_ | reason, st', s'⟩
  · rw [hprep] at hprepared
    exact h.attempt?_eq hnext hprepared
  · rfl

/-- A solve that goes on after a sound moment does not fail: its rounds are moves of the course, so
every round begins at a sound moment. -/
theorem Agrees.repeatRound?_eq (k : Nat) {st : τ} {s : σ} {b : Vec α n}
    (hst : sound ⟨.ready, st, s, b⟩) :
    repeatRound? (me?.round? p) k (st, s) = some (repeatRound (me.round p) k (st, s)) := by
  induction k generalizing st s b with
  | zero => rfl
  | succ k ih =>
    obtain ⟨d, b', hd⟩ := Method.exists_iterate_next_round me accepts p st s b
    have hround : sound ((me.next accepts p)^[d] ⟨.ready, st, s, b⟩) :=
      Function.Iterate.rec sound hst hnext d
    rw [repeatRound?, repeatRound, h.round?_eq hnext hst, Option.bind_eq_bind, Option.bind_some]
    rcases hnew : me.round p (st, s) with ⟨_ | reason, st', s'⟩
    · rw [hd, hnew] at hround
      exact ih hround
    · rfl

/-- A checked solve that begins soundly does not fail. -/
theorem Agrees.run?_eq [Scalar α] (nm : Numerics α) (c : Settings α) (budget : Nat) (x : Vec α n)
    (s : σ) (hopening : sound (me.opening nm c p x s)) :
    me?.run? nm c budget p x s = some (me.run nm c budget p x s) := by
  have hsolve : me?.solve? nm c budget p x s = some (me.solve nm c budget p x s) := by
    unfold Method.opening at hopening
    unfold solve? Method.solve
    rcases heval : (Iterate.start c x).evaluate nm p s with ⟨_ | reason, it, s'⟩
    · rw [heval] at hopening
      simp only [h.start]
      exact h.repeatRound?_eq hnext budget hopening
    · simp only [h.start]
  unfold run? Method.run
  rw [hsolve, h.iterate, Option.bind_eq_bind, Option.bind_some]
  rcases me.solve nm c budget p x s with ⟨reason, st, s'⟩
  exact (apply_ite some _ _ _).symm

end CheckedMethod

end NonlinearSolve

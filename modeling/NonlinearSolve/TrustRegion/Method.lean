import NonlinearSolve.TrustRegion.Iterate

/-! # Trust region methods

A trust region method repeats one round: it prepares the model of the residuals, which may take
callbacks, proposes a step, has the residuals evaluated at the proposed point, and judges the step.
`Method` is a method by these three parts, and `Method.run` is the solve that they make up. Whatever
depends on the course of a solve only, and not on the model, can be said of all methods at once.

Every round that does not end the solve evaluates the residuals once, and the budget of evaluations
is limited. So the budget also bounds the number of rounds, and the repetition is a structural
recursion on it. -/

namespace NonlinearSolve

/-- A trust region method with states of type `τ`, for problems with a state of type `σ`. -/
structure Method (σ α : Type) (m n : Nat) (τ : Type) where
  /-- The state of the method at the starting point. -/
  start : Iterate α m n → τ
  /-- The iterate in a state. -/
  iterate : τ → Iterate α m n
  /-- Does what has to be done before a step can be proposed. It may end the solve. -/
  prepare : τ → σ → Option Termination × τ × σ
  /-- Proposes a step. -/
  propose : τ → Proposal α n × τ
  /-- Draws the consequences of the residuals at the proposed point. It may end the solve. -/
  judge : τ → Proposal α n → Vec α m → Option Termination × τ

/-- Repeats `round`, at most `k` times, until it yields a termination, which is returned with the
last state. -/
def repeatRound {τ : Type} (round : τ → Option Termination × τ) : Nat → τ → Termination × τ
  | 0, t => (.lostPatience, t)
  | k + 1, t =>
    match round t with
    | (some reason, t) => (reason, t)
    | (none, t) => repeatRound round k t

namespace Method

variable {σ α τ : Type} {m n : Nat}

/-- Makes one trial step. -/
def attempt (me : Method σ α m n τ) (p : Problem σ α m n) (st : τ) (s : σ) :
    Option Termination × τ × σ :=
  let (t, st) := me.propose st
  match p.evaluate t.point s with
  | (.error e, s) => (some (.user e), st, s)
  | (.ok residuals, s) =>
    let (reason, st) := me.judge st t residuals
    (reason, st, s)

/-- One round: the preparation and a trial step. -/
def round (me : Method σ α m n τ) (p : Problem σ α m n) (t : τ × σ) : Option Termination × τ × σ :=
  match me.prepare t.1 t.2 with
  | (some reason, st, s) => (some reason, st, s)
  | (none, st, s) => me.attempt p st s

variable [Scalar α]

/-- Solves a problem from the point `x` on: the solve ends at the first evaluation or goes on in
rounds. -/
def solve (me : Method σ α m n τ) (nm : Numerics α) (c : Settings α) (budget : Nat)
    (p : Problem σ α m n) (x : Vec α n) (s : σ) : Termination × τ × σ :=
  match (Iterate.start c x).evaluate nm p s with
  | (some reason, it, s) => (reason, me.start it, s)
  | (none, it, s) => repeatRound (me.round p) budget (me.start it, s)

/-- Solves a problem and reports the final state, if there are reports at all. An abort of that
report has no effect any more. -/
def run (me : Method σ α m n τ) (nm : Numerics α) (c : Settings α) (budget : Nat)
    (p : Problem σ α m n) (x : Vec α n) (s : σ) : Termination × τ × σ :=
  let (reason, st, s) := me.solve nm c budget p x s
  if 0 < c.reportEvery then
    let it := me.iterate st
    (reason, st, (p.report it.iteration it.x it.residuals s).2)
  else (reason, st, s)

end Method

end NonlinearSolve

import NonlinearSolve.Linear.Mat
import NonlinearSolve.Termination

/-! # Problems

A problem is what a caller supplies: residuals, and possibly their Jacobian, as functions of the
unknowns. Every callback may abort, and may keep a state of type `σ` from one call to the next; a
pure problem has the state `Unit`. The solvers call nothing else, and in a definite order.

`Problem.traced` keeps the record of all calls in the state, so that the order of the calls can be
seen and spoken about. -/

namespace NonlinearSolve

/-- A callback with result `β`: it changes the state, and yields a result or aborts. -/
abbrev Callback (σ β : Type) := σ → Except Abort β × σ

/-- A system of `m` residuals in `n` unknowns. -/
structure Problem (σ α : Type) (m n : Nat) where
  /-- The residuals at a point. -/
  evaluate : Vec α n → Callback σ (Vec α m)
  /-- Is told the number of the iteration, the iterate and the residuals there. -/
  report : Nat → Vec α n → Vec α m → Callback σ Unit := fun _ _ _ s => (.ok (), s)

/-- A problem with a Jacobian. -/
structure JacobianProblem (σ α : Type) (m n : Nat) extends Problem σ α m n where
  /-- The Jacobian at a point. -/
  jacobian : Vec α n → Callback σ (Mat α m n)

/-- A problem that gives its Jacobian one row at a time. -/
structure RowProblem (σ α : Type) (m n : Nat) extends Problem σ α m n where
  /-- One row of the Jacobian at a point. -/
  jacobianRow : Vec α n → Fin m → Callback σ (Vec α n)

/-! ### Traces -/

/-- A call of a callback, with its arguments. -/
inductive Call (α : Type) (m n : Nat) where
  /-- The residuals are asked for. -/
  | evaluate (x : Vec α n)
  /-- The Jacobian is asked for. -/
  | jacobian (x : Vec α n)
  /-- A row of the Jacobian is asked for. -/
  | jacobianRow (x : Vec α n) (row : Fin m)
  /-- An iterate is reported. -/
  | report (iteration : Nat) (x : Vec α n) (fvec : Vec α m)

/-- A call together with the abort it ended in, if it did. -/
structure Event (α : Type) (m n : Nat) where
  /-- The call. -/
  call : Call α m n
  /-- How it ended, if not well. -/
  abort : Option Abort

namespace Callback

variable {σ β : Type}

/-- The abort in a result. -/
def abort? : Except Abort β → Option Abort
  | .ok _ => none
  | .error a => some a

/-- The callback that also puts `call` at the end of a trace. -/
def traced {α : Type} {m n : Nat} (call : Call α m n) (f : Callback σ β) :
    Callback (σ × Array (Event α m n)) β := fun s =>
  let r := f s.1
  (r.1, r.2, s.2.push ⟨call, abort? r.1⟩)

end Callback

variable {σ α : Type} {m n : Nat}

/-- The problem that also records its calls. -/
def Problem.traced (p : Problem σ α m n) : Problem (σ × Array (Event α m n)) α m n where
  evaluate x := Callback.traced (.evaluate x) (p.evaluate x)
  report k x f := Callback.traced (.report k x f) (p.report k x f)

/-- The problem that also records its calls. -/
def JacobianProblem.traced (p : JacobianProblem σ α m n) :
    JacobianProblem (σ × Array (Event α m n)) α m n :=
  { p.toProblem.traced with
    jacobian := fun x => Callback.traced (.jacobian x) (p.jacobian x) }

/-- The problem that also records its calls. -/
def RowProblem.traced (p : RowProblem σ α m n) : RowProblem (σ × Array (Event α m n)) α m n :=
  { p.toProblem.traced with
    jacobianRow := fun x i => Callback.traced (.jacobianRow x i) (p.jacobianRow x i) }

end NonlinearSolve

import Lox.Machine.Eval
import Lox.Scope.Resolver
import Lox.Source

/-!
# Sessions

A session keeps its machine from one input to the next, and never hands out a node id twice, so
that the distances of earlier inputs stay good. An input with a static error runs nothing.
-/

namespace Lox

structure Session where
  machine : Machine
  nextId : Nat

namespace Session

def start (clock : Nat → Float) (limit : Option Nat) : Session := ⟨.start clock limit, 0⟩

/-- What has been printed so far, one entry for each `print`. -/
def printed (s : Session) : Array String := s.machine.sink.lines

/-- Runs a step of the machine, which is kept however the step ends. -/
def perform {α : Type} (s : Session) (act : Exec α) : Except Failure α × Session :=
  match act s.machine with
  | .ok a machine => (.ok a, { s with machine })
  | .error stop machine => (.error (.stopped stop), { s with machine })

/-- Takes over the distances of a walk, and goes on if no rule was broken. -/
def resolved {α : Type} (s : Session) (walk : Scope.Walk) (act : Exec α) :
    Except Failure α × Session :=
  let s := { s with machine := s.machine.noteAll walk.distances }
  match walk.errors.toList with
  | [] => s.perform act
  | errors => (.error (.rejected (errors.map .resolve)), s)

/-- Runs a program. -/
def run (fuel : Nat) (source : String) (s : Session) : Except Failure Unit × Session :=
  let (parsed, nextId) := Source.program? source s.nextId
  let s := { s with nextId }
  match parsed with
  | .error errors => (.error (.rejected errors), s)
  | .ok program => s.resolved (Scope.resolve program) (interpret fuel program)

/-- Evaluates a source that is one expression. -/
def evaluate (fuel : Nat) (source : String) (s : Session) : Except Failure Value × Session :=
  let (parsed, nextId) := Source.expression? source s.nextId
  let s := { s with nextId }
  match parsed with
  | .error failure => (.error failure, s)
  | .ok e => s.resolved (Scope.resolveExpression e) (e.eval fuel)

end Session

end Lox

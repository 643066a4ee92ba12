import Lox.Session

/-!
# Runs with a record

The evaluator once more, noting what it begins: each expression and each statement before anything
of it is done, and each line before the sink is asked to take it. What comes after a point of the
run stands after it in the record, so a record that ends at some point tells that nothing was begun
since. The machine takes the same steps as ever.
-/

namespace Lox.Recorded

/-- Something that a run begins: to evaluate an expression, to execute a statement, or to print a
line with the store as it then is. -/
inductive Event
  | eval (e : Expr)
  | exec (s : Stmt)
  | print (line : String) (store : Heap)

def Event.line? : Event → Option String
  | .print line _ => some line
  | _ => none

/-- The lines that were to be printed, in order. -/
def lines (events : List Event) : List String := events.filterMap Event.line?

/-- A machine with what was begun so far. -/
structure State where
  machine : Machine
  events : List Event

abbrev Run := EStateM Stop State

def State.noting (t : State) (event : Event) : State := { t with events := t.events ++ [event] }

def note (event : Event) : Run Unit := fun t => .ok () (t.noting event)

/-- A step of the machine alone. -/
def lift {α : Type} (act : Exec α) : Run α := fun t =>
  match act t.machine with
  | .ok a machine => .ok a { t with machine }
  | .error stop machine => .error stop { t with machine }

def withFrame {α : Type} (e : FrameId) (act : Run α) : Run α := fun t =>
  let outer := t.machine.frame
  match act { t with machine := { t.machine with frame := e } } with
  | .ok a t => .ok a { t with machine := { t.machine with frame := outer } }
  | .error stop t => .error stop { t with machine := { t.machine with frame := outer } }

/-- The line is noted whether or not the sink takes it. -/
def print (line : String) : Run Unit := fun t =>
  lift (Exec.print line) (t.noting (.print line t.machine.heap))

/-! ### Running -/

def runAll (run : Stmt → Run Flow) : List Stmt → Run Flow
  | [] => return .normal
  | s :: ss => do
    match ← run s with
    | .normal => runAll run ss
    | flow => return flow

def repeatWhile (condition : Run Value) (body : Run Flow) : (fuel : Nat) → Run Flow
  | 0 => throw .outOfFuel
  | n + 1 => do
    if (← condition).isTruthy then
      match ← body with
      | .normal => repeatWhile condition body n
      | .break => return .normal
      | .return v => return .return v
    else return .normal

def superclassOf (run : Expr → Run Value) (name : Token) : Option Expr → Run (Option ClassId)
  | none => return none
  | some e => do
    match ← run e with
    | .class c => return some c
    | _ =>
      let blamed := match e with
        | .variable _ parent => parent
        | _ => name
      lift (Exec.fail blamed .superclassNotClass)

mutual

def eval : (fuel : Nat) → Expr → Run Value
  | 0, _ => throw .outOfFuel
  | n + 1, e => do
    note (.eval e)
    match e with
    | .literal value => return .ofLiteral value
    | .grouping inner => eval n inner
    | .unary operator right => do
      let right ← eval n right
      lift (Exec.ofResult operator (unaryResult operator.kind right))
    | .binary left operator right => do
      let left ← eval n left
      let right ← eval n right
      lift (Exec.ofResult operator (binaryResult operator.kind left right))
    | .logical left operator right => do
      let left ← eval n left
      if shortCircuits operator.kind left then return left else eval n right
    | .variable id name => lift (Exec.read id name)
    | .assign id name value => do
      let v ← eval n value
      lift (Exec.assign id name v)
      return v
    | .call callee paren arguments => do
      let f ← eval n callee
      let arguments ← arguments.mapM (eval n)
      match ← lift (Exec.inspect (·.arity? f)) with
      | none => lift (Exec.fail paren .notCallable)
      | some arity =>
        if arguments.length = arity then call n f paren arguments
        else lift (Exec.fail paren (.wrongArity arity arguments.length))
    | .get object name => do
      match ← eval n object with
      | .instance o => lift (Exec.getProperty o name)
      | _ => lift (Exec.fail name .readsNoInstance)
    | .set object name value => do
      match ← eval n object with
      | .instance o =>
        let v ← eval n value
        lift (Exec.setProperty o name v)
        return v
      | _ => lift (Exec.fail name .writesNoInstance)
    | .this id keyword => lift (Exec.read id keyword)
    | .super id keyword method => lift (Exec.getSuper id keyword method)

def call : (fuel : Nat) → Value → (paren : Token) → List Value → Run Value
  | 0, _, _, _ => throw .outOfFuel
  | n + 1, callee, paren, arguments => do
    match callee with
    | .native id => lift (Exec.callNative paren (← lift (Exec.inspect (·.native id))) arguments)
    | .function f => callClosure n (← lift (Exec.inspect (·.closure f))) arguments
    | .class c =>
      let o ← lift (Exec.modifyHeap fun h => h.newInstance c)
      match ← lift (Exec.inspect (·.method? c initializerName)) with
      | some f =>
        let initializer ← lift (Exec.bindThis f o)
        let _ ← callClosure n initializer arguments
        return .instance o
      | none => return .instance o
    | _ => lift (Exec.fail paren .notCallable)

def callClosure : (fuel : Nat) → Closure → List Value → Run Value
  | 0, _, _ => throw .outOfFuel
  | n + 1, f, arguments => do
    let e ← lift (Exec.newFrame f.frame (parameterBindings f.decl.params arguments))
    let flow ← withFrame e (runAll (exec n) f.decl.body)
    if f.isInitializer then lift (Exec.ask fun m => m.heap.getAt f.frame 0 "this")
    else return flow.result

def exec : (fuel : Nat) → Stmt → Run Flow
  | 0, _ => throw .outOfFuel
  | n + 1, s => do
    note (.exec s)
    match s with
    | .expression value => do
      let _ ← eval n value
      return .normal
    | .print value => do
      let v ← eval n value
      print (← lift (Exec.inspect (·.display v)))
      return .normal
    | .var name none => do
      lift (Exec.define name.lexeme .nil)
      return .normal
    | .var name (some value) => do
      lift (Exec.define name.lexeme (← eval n value))
      return .normal
    | .block body => do
      let e ← lift (Exec.newFrame (← lift Exec.currentFrame) .empty)
      withFrame e (runAll (exec n) body)
    | .if condition thenBranch elseBranch => do
      if (← eval n condition).isTruthy then exec n thenBranch
      else match elseBranch with
        | some elseBranch => exec n elseBranch
        | none => return .normal
    | .while condition body => repeatWhile (eval n condition) (exec n body) n
    | .break _ => return .break
    | .function decl => do
      let f ← lift (Exec.newClosure ⟨decl, ← lift Exec.currentFrame, false⟩)
      lift (Exec.define decl.name.lexeme f)
      return .normal
    | .return _ none => return .return .nil
    | .return _ (some value) => return .return (← eval n value)
    | .class name superclass methods => do
      let parent ← superclassOf (eval n) name superclass
      lift (Exec.define name.lexeme .nil)
      let here ← lift Exec.currentFrame
      let around ← lift (methodFrame here parent)
      let c ← lift (Exec.newClass name.lexeme parent methods around)
      lift (Exec.assignFrom here name c)
      return .normal

end

def interpret (fuel : Nat) (program : List Stmt) : Run Unit :=
  program.forM fun s => do
    let _ ← exec fuel s

/-! ### Sessions -/

/-- How an input is answered, the session after it and what was begun in between. -/
structure Answer where
  outcome : Except Failure Unit
  next : Session
  events : List Event

/-- The answer without its record. -/
def Answer.erase (answer : Answer) : Except Failure Unit × Session := (answer.outcome, answer.next)

/-- What a session answers when a step ends so. -/
def answer (s : Session) : EStateM.Result Stop State Unit → Answer
  | .ok _ t => ⟨.ok (), { s with machine := t.machine }, t.events⟩
  | .error stop t => ⟨.error (.stopped stop), { s with machine := t.machine }, t.events⟩

def perform (s : Session) (act : Run Unit) : Answer := answer s (act ⟨s.machine, []⟩)

def resolved (s : Session) (walk : Scope.Walk) (act : Run Unit) : Answer :=
  let s := { s with machine := s.machine.noteAll walk.distances }
  match walk.errors.toList with
  | [] => perform s act
  | errors => ⟨.error (.rejected (errors.map .resolve)), s, []⟩

/-- Runs a program. -/
def run (fuel : Nat) (source : String) (s : Session) : Answer :=
  let (parsed, nextId) := Source.program? source s.nextId
  let s := { s with nextId }
  match parsed with
  | .error errors => ⟨.error (.rejected errors), s, []⟩
  | .ok program => resolved s (Scope.resolve program) (interpret fuel program)

end Lox.Recorded

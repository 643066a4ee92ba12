import Lox.Machine.Eval

/-!
# Scope by name

A second way of running a tree, which knows no distances. The variables of blocks and calls are
cells, and a place in the program sees a list of names with their cells, innermost first. A
declaration puts a fresh cell in front of the list for what follows it in the same block, a closure
keeps the list that its declaration saw, and a name with no cell in the list is global. Objects,
globals and output are those of a machine that has no frame but the global one.
-/

namespace Lox.Lexical

structure CellId where
  index : Nat
  deriving DecidableEq, Repr

/-- The local variables in sight, innermost first. -/
abbrev Locals := List (String × CellId)

/-- Declarations at the top of a program are global; inside a block or a function they are not. -/
inductive Scope
  | top
  | inside (locals : Locals)

def Scope.locals : Scope → Locals
  | .top => []
  | .inside locals => locals

/-- `captured` has the list of each closure of the machine. -/
structure State where
  machine : Machine
  cells : Array Value
  captured : Array Locals

abbrev Run := EStateM Stop State

/-- A step that concerns objects, globals or output alone. -/
def onMachine {α : Type} (act : Exec α) : Run α := fun r =>
  match act r.machine with
  | .ok a machine => .ok a { r with machine }
  | .error stop machine => .error stop { r with machine }

/-! ### Variables -/

def newCell (v : Value) : Run CellId := fun r =>
  .ok ⟨r.cells.size⟩ { r with cells := r.cells.push v }

def readCell (c : CellId) : Run Value := fun r => .ok (r.cells.getD c.index .nil) r

def writeCell (c : CellId) (v : Value) : Run Unit := fun r =>
  .ok () { r with cells := r.cells.setIfInBounds c.index v }

/-- A fresh cell for each name, the last one innermost. -/
def bindAll : List (String × Value) → Locals → Run Locals
  | [], locals => return locals
  | (name, v) :: rest, locals => do
    let c ← newCell v
    bindAll rest ((name, c) :: locals)

def read (locals : Locals) (name : Token) : Run Value :=
  match locals.lookup name.lexeme with
  | some c => readCell c
  | none => onMachine (Exec.getFrom Machine.globals name)

def assign (locals : Locals) (name : Token) (v : Value) : Run Unit :=
  match locals.lookup name.lexeme with
  | some c => writeCell c v
  | none => onMachine (Exec.assignFrom Machine.globals name v)

/-- A local declaration has a fresh cell. -/
def declare (scope : Scope) (name : Token) : Run Scope :=
  match scope with
  | .top => return .top
  | .inside locals => do
    let c ← newCell .nil
    return .inside ((name.lexeme, c) :: locals)

/-- Gives a value to a name that has just been declared. -/
def define (scope : Scope) (name : Token) (v : Value) : Run Unit :=
  match scope with
  | .top => onMachine (Exec.define name.lexeme v)
  | .inside locals => assign locals name v

/-! ### Objects -/

/-- A closure with the local variables that its declaration saw. -/
structure Function where
  closure : Closure
  locals : Locals

def newClosure (f : Function) : Run Value := do
  let v ← onMachine (Exec.newClosure f.closure)
  modify fun r => { r with captured := r.captured.push f.locals }
  return v

theorem newClosure_eq (f : Function) (r : State) :
    newClosure f r = .ok (.function ⟨r.machine.heap.closures.size⟩) { r with
      machine := { r.machine with heap := (r.machine.heap.newClosure f.closure).2 }
      captured := r.captured.push f.locals } :=
  rfl

def function (f : ClosureId) : Run Function := do
  let closure ← onMachine (Exec.inspect (·.closure f))
  return ⟨closure, (← get).captured.getD f.index []⟩

def method? (c : ClassId) (name : String) : Run (Option Function) := do
  match ← onMachine (Exec.inspect (·.findMethod? c name)) with
  | some f => return some (← function f)
  | none => return none

def bindThis (f : Function) (o : InstanceId) : Run Function := do
  return { f with locals := ← bindAll [("this", .instance o)] f.locals }

def getProperty (o : InstanceId) (name : Token) : Run Value := do
  match ← onMachine (Exec.inspect (·.field? o name.lexeme)) with
  | some v => return v
  | none =>
  let c ← onMachine (Exec.inspect fun h => (h.instanceAt o).classId)
  match ← method? c name.lexeme with
  | some f => newClosure (← bindThis f o)
  | none => onMachine (Exec.fail name (.undefinedProperty name.lexeme))

def getSuper (locals : Locals) (keyword method : Token) : Run Value :=
  match locals.lookup "super", locals.lookup "this" with
  | some s, some t => do
    let parent ← readCell s
    let receiver ← readCell t
    match parent, receiver with
    | .class c, .instance o =>
      match ← method? c method.lexeme with
      | some f => newClosure (← bindThis f o)
      | none => onMachine (Exec.fail method (.undefinedProperty method.lexeme))
    | _, _ => onMachine (Exec.fail keyword .superNotBound)
  | none, _ => onMachine (Exec.fail keyword .superOutsideClass)
  | some _, none => onMachine (Exec.fail keyword .superNotBound)

/-- What the methods of a class see: `super` in front when there is a superclass. -/
def methodLocals (locals : Locals) : Option ClassId → Run Locals
  | none => return locals
  | some c => bindAll [("super", .class c)] locals

def newClass (name : String) (superclass : Option ClassId) (methods : List FunDecl)
    (locals : Locals) : Run Value := do
  let v ← onMachine (Exec.newClass name superclass methods Machine.globals)
  modify fun r => { r with captured := r.captured ++ Array.replicate methods.length locals }
  return v

theorem newClass_of_ok {name : String} {superclass : Option ClassId} {methods : List FunDecl}
    {locals : Locals} {r : State} {v : Value} {m : Machine}
    (h : Exec.newClass name superclass methods Machine.globals r.machine = .ok v m) :
    newClass name superclass methods locals r = .ok v { r with
      machine := m
      captured := r.captured ++ Array.replicate methods.length locals } := by
  simp only [newClass, onMachine, Bind.bind, EStateM.bind, h]
  rfl

def receiver (locals : Locals) : Run Value :=
  match locals.lookup "this" with
  | some c => readCell c
  | none => return .nil

/-! ### Running -/

def ofResult (operator : Token) (result : Except RuntimeError.Cause Value) : Run Value :=
  onMachine (Exec.ofResult operator result)

/-- Statements in order, each in the scope that the one before it leaves. -/
def runAll (run : Scope → Stmt → Run (Flow × Scope)) : Scope → List Stmt → Run Flow
  | _, [] => return .normal
  | scope, s :: ss => do
    let (flow, scope) ← run scope s
    match flow with
    | .normal => runAll run scope ss
    | flow => return flow

def repeatWhile (condition : Run Value) (body : Run Flow) : (fuel : Nat) → Run Flow
  | 0 => throw .outOfFuel
  | n + 1 => do
    if (← condition).isTruthy then
      match ← body with
      | .normal => repeatWhile condition body n
      | .break => return .normal
      | .return v => return .return v
    else return .normal

def superclassOf (run : Expr → Run Value) (name : Token) : Option Expr → Run (Option ClassId)
  | none => return none
  | some e => do
    match ← run e with
    | .class c => return some c
    | _ =>
      let blamed := match e with
        | .variable _ parent => parent
        | _ => name
      onMachine (Exec.fail blamed .superclassNotClass)

mutual

def eval : (fuel : Nat) → Locals → Expr → Run Value
  | 0, _, _ => throw .outOfFuel
  | n + 1, locals, e =>
    match e with
    | .literal value => return .ofLiteral value
    | .grouping inner => eval n locals inner
    | .unary operator right => do
      let right ← eval n locals right
      ofResult operator (unaryResult operator.kind right)
    | .binary left operator right => do
      let left ← eval n locals left
      let right ← eval n locals right
      ofResult operator (binaryResult operator.kind left right)
    | .logical left operator right => do
      let left ← eval n locals left
      if shortCircuits operator.kind left then return left else eval n locals right
    | .variable _ name => read locals name
    | .assign _ name value => do
      let v ← eval n locals value
      assign locals name v
      return v
    | .call callee paren arguments => do
      let f ← eval n locals callee
      let arguments ← arguments.mapM (eval n locals)
      match ← onMachine (Exec.inspect (·.arity? f)) with
      | none => onMachine (Exec.fail paren .notCallable)
      | some arity =>
        if arguments.length = arity then call n f paren arguments
        else onMachine (Exec.fail paren (.wrongArity arity arguments.length))
    | .get object name => do
      match ← eval n locals object with
      | .instance o => getProperty o name
      | _ => onMachine (Exec.fail name .readsNoInstance)
    | .set object name value => do
      match ← eval n locals object with
      | .instance o =>
        let v ← eval n locals value
        onMachine (Exec.setProperty o name v)
        return v
      | _ => onMachine (Exec.fail name .writesNoInstance)
    | .this _ keyword => read locals keyword
    | .super _ keyword method => getSuper locals keyword method

def call : (fuel : Nat) → Value → (paren : Token) → List Value → Run Value
  | 0, _, _, _ => throw .outOfFuel
  | n + 1, callee, paren, arguments => do
    match callee with
    | .native id =>
      onMachine (Exec.callNative paren (← onMachine (Exec.inspect (·.native id))) arguments)
    | .function f => callFunction n (← function f) arguments
    | .class c =>
      let o ← onMachine (Exec.modifyHeap fun h => h.newInstance c)
      match ← method? c initializerName with
      | some f =>
        let initializer ← bindThis f o
        let _ ← callFunction n initializer arguments
        return .instance o
      | none => return .instance o
    | _ => onMachine (Exec.fail paren .notCallable)

def callFunction : (fuel : Nat) → Function → List Value → Run Value
  | 0, _, _ => throw .outOfFuel
  | n + 1, f, arguments => do
    let params := f.closure.decl.params.map (·.lexeme)
    let locals ← bindAll (params.zip arguments) f.locals
    let flow ← runAll (exec n) (.inside locals) f.closure.decl.body
    if f.closure.isInitializer then receiver f.locals else return flow.result

/-- The flow of a statement, and the scope of what follows it. -/
def exec : (fuel : Nat) → Scope → Stmt → Run (Flow × Scope)
  | 0, _, _ => throw .outOfFuel
  | n + 1, scope, s =>
    match s with
    | .expression value => do
      let _ ← eval n scope.locals value
      return (.normal, scope)
    | .print value => do
      let v ← eval n scope.locals value
      onMachine (Exec.print (← onMachine (Exec.inspect (·.display v))))
      return (.normal, scope)
    | .var name none => do
      let scope ← declare scope name
      define scope name .nil
      return (.normal, scope)
    | .var name (some value) => do
      let scope ← declare scope name
      define scope name (← eval n scope.locals value)
      return (.normal, scope)
    | .block body => do
      let flow ← runAll (exec n) (.inside scope.locals) body
      return (flow, scope)
    | .if condition thenBranch elseBranch => do
      if (← eval n scope.locals condition).isTruthy then exec n scope thenBranch
      else match elseBranch with
        | some elseBranch => exec n scope elseBranch
        | none => return (.normal, scope)
    | .while condition body => do
      let round : Run Flow := do
        let (flow, _) ← exec n scope body
        return flow
      let flow ← repeatWhile (eval n scope.locals condition) round n
      return (flow, scope)
    | .break _ => return (.break, scope)
    | .function decl => do
      let scope ← declare scope decl.name
      let f ← newClosure ⟨⟨decl, Machine.globals, false⟩, scope.locals⟩
      define scope decl.name f
      return (.normal, scope)
    | .return _ none => return (.return .nil, scope)
    | .return _ (some value) => do
      let v ← eval n scope.locals value
      return (.return v, scope)
    | .class name superclass methods => do
      let parent ← superclassOf (eval n scope.locals) name superclass
      let scope ← declare scope name
      define scope name .nil
      let around ← methodLocals scope.locals parent
      let c ← newClass name.lexeme parent methods around
      assign scope.locals name c
      return (.normal, scope)

end

/-! ### Without fuel -/

theorem eval_zero (locals : Locals) (e : Expr) : eval 0 locals e = throw .outOfFuel := by
  simp only [eval]

theorem call_zero (callee : Value) (paren : Token) (arguments : List Value) :
    call 0 callee paren arguments = throw .outOfFuel := by
  simp only [call]

theorem callFunction_zero (f : Function) (arguments : List Value) :
    callFunction 0 f arguments = throw .outOfFuel := by
  simp only [callFunction]

theorem exec_zero (scope : Scope) (s : Stmt) : exec 0 scope s = throw .outOfFuel := by
  simp only [exec]

/-! ### Programs -/

/-- The statements of a program in order. -/
def interpret (fuel : Nat) (program : List Stmt) : Run Unit :=
  program.forM fun s => do
    let _ ← exec fuel .top s

/-- The clock is the only global. -/
def State.start (clock : Nat → Float) (limit : Option Nat) : State :=
  ⟨.start clock limit, #[], #[]⟩

/-- How a program ends that is the first to run, and what it prints. -/
def runProgram (clock : Nat → Float) (limit : Option Nat) (fuel : Nat) (program : List Stmt) :
    Except Stop Unit × Array String :=
  match interpret fuel program (.start clock limit) with
  | .ok _ r => (.ok (), r.machine.sink.lines)
  | .error stop r => (.error stop, r.machine.sink.lines)

end Lox.Lexical

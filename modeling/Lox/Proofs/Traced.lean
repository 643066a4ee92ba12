import Lox.Session

/-!
# Runs with a trace

The evaluator once more, with what it leaves unsaid: on whose behalf each piece of code runs, and how
each piece ended. Whose code it is comes from what was declared and bound, and never from a frame: the
methods of a class belong to the superclass its declaration found, binding one makes it run on behalf of
an instance, and a function declared inside runs on behalf of whatever declares it. The machine takes
the same steps as ever.
-/

namespace Lox.Traced

/-- On whose behalf code runs: the instance that its method value is bound to, and the superclass of
the innermost class declaration around it. -/
structure Home where
  receiver : Option InstanceId
  parent : Option ClassId

/-- Code outside of all methods. -/
def Home.outside : Home := ⟨none, none⟩

/-- A machine with the home of each of its closures. -/
structure State where
  machine : Machine
  homes : Array Home

def State.home (t : State) (f : ClosureId) : Home := t.homes.getD f.index .outside

/-- A closure and on whose behalf it runs. -/
structure Function where
  closure : Closure
  home : Home

/-- A piece of code that ran, from where and how it ended: an expression, a statement, the body of a
call, or a statement at the top of a program. -/
inductive Event
  | eval (home : Home) (e : Expr) (before : State) (result : Except Stop Value) (after : State)
  | exec (home : Home) (s : Stmt) (before : State) (result : Except Stop Flow) (after : State)
  | body (f : Function) (before : State) (result : Except Stop Flow) (after : State)
  | top (s : Stmt) (before : State) (result : Except Stop Flow) (after : State)

/-- What has run so far, the first to end first. -/
structure Log extends State where
  events : Array Event

abbrev Run := EStateM Stop Log

/-- A step of the machine alone. -/
def lift {α : Type} (act : Exec α) : Run α := fun r =>
  match act r.machine with
  | .ok a machine => .ok a { r with machine }
  | .error stop machine => .error stop { r with machine }

def withFrame {α : Type} (e : FrameId) (act : Run α) : Run α := fun r =>
  let outer := r.machine.frame
  match act { r with machine := { r.machine with frame := e } } with
  | .ok a r => .ok a { r with machine := { r.machine with frame := outer } }
  | .error stop r => .error stop { r with machine := { r.machine with frame := outer } }

/-- Notes how a piece of code ended. -/
def note {α : Type} (event : State → Except Stop α → State → Event) (act : Run α) : Run α := fun r =>
  match act r with
  | .ok a t => .ok a { t with events := t.events.push (event r.toState (.ok a) t.toState) }
  | .error stop t =>
    .error stop { t with events := t.events.push (event r.toState (.error stop) t.toState) }

/-! ### Objects -/

def newClosure (f : Function) : Run Value := do
  let v ← lift (Exec.newClosure f.closure)
  modify fun r => { r with homes := r.homes.push f.home }
  return v

theorem newClosure_eq (f : Function) (r : Log) :
    newClosure f r = .ok (.function ⟨r.machine.heap.closures.size⟩) { r with
      machine := { r.machine with heap := (r.machine.heap.newClosure f.closure).2 }
      homes := r.homes.push f.home } :=
  rfl

def function (f : ClosureId) : Run Function := fun r =>
  .ok ⟨r.machine.heap.closure f, r.home f⟩ r

def method? (c : ClassId) (name : String) : Run (Option Function) := do
  match ← lift (Exec.inspect (·.findMethod? c name)) with
  | some f => return some (← function f)
  | none => return none

/-- A method bound to an instance runs on its behalf. -/
def bindThis (f : Function) (o : InstanceId) : Run Function := do
  let closure ← lift (Exec.bindThis f.closure o)
  return ⟨closure, { f.home with receiver := some o }⟩

def getProperty (o : InstanceId) (name : Token) : Run Value := do
  match ← lift (Exec.inspect (·.field? o name.lexeme)) with
  | some v => return v
  | none =>
  let c ← lift (Exec.inspect fun h => (h.instanceAt o).classId)
  match ← method? c name.lexeme with
  | some f => newClosure (← bindThis f o)
  | none => lift (Exec.fail name (.undefinedProperty name.lexeme))

def getSuper (id : NodeId) (keyword method : Token) : Run Value := do
  match ← lift (Exec.distance? id) with
  | none => lift (Exec.fail keyword .superOutsideClass)
  | some d =>
    let parent ← lift (Exec.getAt d "super")
    match d with
    | 0 => throw (.fault .superAtZero)
    | inner + 1 =>
    let receiver ← lift (Exec.getAt inner "this")
    match parent, receiver with
    | .class c, .instance o =>
      match ← method? c method.lexeme with
      | some f => newClosure (← bindThis f o)
      | none => lift (Exec.fail method (.undefinedProperty method.lexeme))
    | _, _ => lift (Exec.fail keyword .superNotBound)

/-- The methods of a class wait for an instance to run on behalf of. -/
def newClass (name : String) (superclass : Option ClassId) (methods : List FunDecl)
    (e : FrameId) : Run Value := do
  let v ← lift (Exec.newClass name superclass methods e)
  modify fun r => { r with
    homes := r.homes ++ Array.replicate methods.length ⟨none, superclass⟩ }
  return v

theorem newClass_of_ok {name : String} {superclass : Option ClassId} {methods : List FunDecl}
    {e : FrameId} {r : Log} {v : Value} {m : Machine}
    (h : Exec.newClass name superclass methods e r.machine = .ok v m) :
    newClass name superclass methods e r = .ok v { r with
      machine := m
      homes := r.homes ++ Array.replicate methods.length ⟨none, superclass⟩ } := by
  simp only [newClass, lift, Bind.bind, EStateM.bind, h]
  rfl

/-! ### Running -/

def runAll (run : Stmt → Run Flow) : List Stmt → Run Flow
  | [] => return .normal
  | s :: ss => do
    match ← run s with
    | .normal => runAll run ss
    | flow => return flow

def repeatWhile (condition : Run Value) (body : Run Flow) : (fuel : Nat) → Run Flow
  | 0 => throw .outOfFuel
  | n + 1 => do
    if (← condition).isTruthy then
      match ← body with
      | .normal => repeatWhile condition body n
      | .break => return .normal
      | .return v => return .return v
    else return .normal

def superclassOf (run : Expr → Run Value) (name : Token) : Option Expr → Run (Option ClassId)
  | none => return none
  | some e => do
    match ← run e with
    | .class c => return some c
    | _ =>
      let blamed := match e with
        | .variable _ parent => parent
        | _ => name
      lift (Exec.fail blamed .superclassNotClass)

mutual

def eval : (fuel : Nat) → Home → Expr → Run Value
  | 0, _, _ => throw .outOfFuel
  | n + 1, home, e =>
    note (.eval home e) <|
    match e with
    | .literal value => return .ofLiteral value
    | .grouping inner => eval n home inner
    | .unary operator right => do
      let right ← eval n home right
      lift (Exec.ofResult operator (unaryResult operator.kind right))
    | .binary left operator right => do
      let left ← eval n home left
      let right ← eval n home right
      lift (Exec.ofResult operator (binaryResult operator.kind left right))
    | .logical left operator right => do
      let left ← eval n home left
      if shortCircuits operator.kind left then return left else eval n home right
    | .variable id name => lift (Exec.read id name)
    | .assign id name value => do
      let v ← eval n home value
      lift (Exec.assign id name v)
      return v
    | .call callee paren arguments => do
      let f ← eval n home callee
      let arguments ← arguments.mapM (eval n home)
      match ← lift (Exec.inspect (·.arity? f)) with
      | none => lift (Exec.fail paren .notCallable)
      | some arity =>
        if arguments.length = arity then call n f paren arguments
        else lift (Exec.fail paren (.wrongArity arity arguments.length))
    | .get object name => do
      match ← eval n home object with
      | .instance o => getProperty o name
      | _ => lift (Exec.fail name .readsNoInstance)
    | .set object name value => do
      match ← eval n home object with
      | .instance o =>
        let v ← eval n home value
        lift (Exec.setProperty o name v)
        return v
      | _ => lift (Exec.fail name .writesNoInstance)
    | .this id keyword => lift (Exec.read id keyword)
    | .super id keyword method => getSuper id keyword method

def call : (fuel : Nat) → Value → (paren : Token) → List Value → Run Value
  | 0, _, _, _ => throw .outOfFuel
  | n + 1, callee, paren, arguments => do
    match callee with
    | .native id => lift (Exec.callNative paren (← lift (Exec.inspect (·.native id))) arguments)
    | .function f => callFunction n (← function f) arguments
    | .class c =>
      let o ← lift (Exec.modifyHeap fun h => h.newInstance c)
      match ← method? c initializerName with
      | some f =>
        let initializer ← bindThis f o
        let _ ← callFunction n initializer arguments
        return .instance o
      | none => return .instance o
    | _ => lift (Exec.fail paren .notCallable)

def callFunction : (fuel : Nat) → Function → List Value → Run Value
  | 0, _, _ => throw .outOfFuel
  | n + 1, f, arguments => do
    let e ← lift (Exec.newFrame f.closure.frame (parameterBindings f.closure.decl.params arguments))
    let flow ← note (.body f) (withFrame e (runAll (exec n f.home) f.closure.decl.body))
    if f.closure.isInitializer then
      lift (Exec.ask fun m => m.heap.getAt f.closure.frame 0 "this")
    else return flow.result

def exec : (fuel : Nat) → Home → Stmt → Run Flow
  | 0, _, _ => throw .outOfFuel
  | n + 1, home, s =>
    note (.exec home s) <|
    match s with
    | .expression value => do
      let _ ← eval n home value
      return .normal
    | .print value => do
      let v ← eval n home value
      lift (Exec.print (← lift (Exec.inspect (·.display v))))
      return .normal
    | .var name none => do
      lift (Exec.define name.lexeme .nil)
      return .normal
    | .var name (some value) => do
      lift (Exec.define name.lexeme (← eval n home value))
      return .normal
    | .block body => do
      let e ← lift (Exec.newFrame (← lift Exec.currentFrame) .empty)
      withFrame e (runAll (exec n home) body)
    | .if condition thenBranch elseBranch => do
      if (← eval n home condition).isTruthy then exec n home thenBranch
      else match elseBranch with
        | some elseBranch => exec n home elseBranch
        | none => return .normal
    | .while condition body => repeatWhile (eval n home condition) (exec n home body) n
    | .break _ => return .break
    | .function decl => do
      let f ← newClosure ⟨⟨decl, ← lift Exec.currentFrame, false⟩, home⟩
      lift (Exec.define decl.name.lexeme f)
      return .normal
    | .return _ none => return .return .nil
    | .return _ (some value) => return .return (← eval n home value)
    | .class name superclass methods => do
      let parent ← superclassOf (eval n home) name superclass
      lift (Exec.define name.lexeme .nil)
      let here ← lift Exec.currentFrame
      let around ← lift (methodFrame here parent)
      let c ← newClass name.lexeme parent methods around
      lift (Exec.assignFrom here name c)
      return .normal

end

/-! ### Without fuel -/

theorem eval_zero (home : Home) (e : Expr) : eval 0 home e = throw .outOfFuel := by
  simp only [eval]

theorem call_zero (callee : Value) (paren : Token) (arguments : List Value) :
    call 0 callee paren arguments = throw .outOfFuel := by
  simp only [call]

theorem callFunction_zero (f : Function) (arguments : List Value) :
    callFunction 0 f arguments = throw .outOfFuel := by
  simp only [callFunction]

theorem exec_zero (home : Home) (s : Stmt) : exec 0 home s = throw .outOfFuel := by
  simp only [exec]

/-! ### Programs -/

/-- The statements of a program in order, at the top and on nobody's behalf. -/
def interpret (fuel : Nat) (program : List Stmt) : Run Unit :=
  program.forM fun s => do
    let _ ← note (.top s) (exec fuel .outside s)

/-! ### Sessions -/

/-- A session with the home of each of its closures. -/
structure Session extends Lox.Session where
  homes : Array Home

/-- How an input is answered, the session after it and what ran in between. -/
structure Answer (α : Type) where
  outcome : Except Failure α
  next : Session
  events : Array Event

/-- The answer without its trace. -/
def Answer.erase {α : Type} (answer : Answer α) : Except Failure α × Lox.Session :=
  (answer.outcome, answer.next.toSession)

namespace Session

def start (clock : Nat → Float) (limit : Option Nat) : Session where
  toSession := .start clock limit
  homes := #[]

def state (t : Session) : State := ⟨t.machine, t.homes⟩

def perform {α : Type} (t : Session) (act : Run α) : Answer α :=
  match act { t.state with events := #[] } with
  | .ok a r => ⟨.ok a, ⟨⟨r.machine, t.nextId⟩, r.homes⟩, r.events⟩
  | .error stop r => ⟨.error (.stopped stop), ⟨⟨r.machine, t.nextId⟩, r.homes⟩, r.events⟩

def resolved {α : Type} (t : Session) (walk : Scope.Walk) (act : Run α) : Answer α :=
  let t : Session := ⟨⟨t.machine.noteAll walk.distances, t.nextId⟩, t.homes⟩
  match walk.errors.toList with
  | [] => t.perform act
  | errors => ⟨.error (.rejected (errors.map .resolve)), t, #[]⟩

def run (fuel : Nat) (source : String) (t : Session) : Answer Unit :=
  let (parsed, nextId) := Source.program? source t.nextId
  let t : Session := ⟨⟨t.machine, nextId⟩, t.homes⟩
  match parsed with
  | .error errors => ⟨.error (.rejected errors), t, #[]⟩
  | .ok program => t.resolved (Scope.resolve program) (interpret fuel program)

/-- An expression of its own stands outside of all methods. -/
def evaluate (fuel : Nat) (source : String) (t : Session) : Answer Value :=
  let (parsed, nextId) := Source.expression? source t.nextId
  let t : Session := ⟨⟨t.machine, nextId⟩, t.homes⟩
  match parsed with
  | .error failure => ⟨.error failure, t, #[]⟩
  | .ok e => t.resolved (Scope.resolveExpression e) (eval fuel .outside e)

/-- The host changes the machine alone. -/
def withMachine (t : Session) (machine : Machine) : Session := ⟨⟨machine, t.nextId⟩, t.homes⟩

/-- The sessions that inputs and the host lead to, with the values that the host has been given. -/
inductive Reached : Session → List Value → Prop
  | start (clock : Nat → Float) (limit : Option Nat) : Reached (.start clock limit) []
  | run {t : Session} {held : List Value} (h : Reached t held) (fuel : Nat) (source : String) :
      Reached (t.run fuel source).next held
  | evaluate {t : Session} {held : List Value} (h : Reached t held) (fuel : Nat)
      (source : String) :
      Reached (t.evaluate fuel source).next
        ((t.evaluate fuel source).outcome.toOption.toList ++ held)
  | define {t : Session} {held : List Value} (h : Reached t held) (name : String) {v : Value}
      (hv : v ∈ held ∨ ∃ literal, v = .ofLiteral literal) :
      Reached (t.withMachine (t.machine.defineGlobal name v)) held
  | defineNative {t : Session} {held : List Value} (h : Reached t held) (name : String)
      (native : Native) :
      Reached (t.withMachine (t.machine.defineNative name native)) held

end Session

/-! ### What is to be seen -/

/-- The first method of a name, from a class outward along its superclasses. -/
inductive FirstMethod (h : Heap) (name : String) : ClassId → ClosureId → Prop
  | own {c : ClassId} {f : ClosureId} :
      (h.classAt c).methods.find? name = some f → FirstMethod h name c f
  | inherited {c p : ClassId} {f : ClosureId} :
      (h.classAt c).methods.find? name = none → (h.classAt c).superclass = some p →
      FirstMethod h name p f → FirstMethod h name c f

/-- A new closure is the method `f` bound to `o`: it has the code of `f`, runs on behalf of `o`, and
its frame binds `this` around which stands the frame of `f`. -/
structure Binds (before after : State) (f : ClosureId) (o : InstanceId) (g : ClosureId) : Prop where
  fresh : g.index = before.machine.heap.closures.size
  decl : (after.machine.heap.closure g).decl = (before.machine.heap.closure f).decl
  isInitializer : (after.machine.heap.closure g).isInitializer =
    (before.machine.heap.closure f).isInitializer
  home : after.home g = { before.home f with receiver := some o }
  frame : after.machine.heap.frame (after.machine.heap.closure g).frame =
    ⟨Bindings.empty.insert "this" (.instance o), some (before.machine.heap.closure f).frame⟩

/-- What code sees of the class it stands in: `this` is the instance on whose behalf it runs, and a
method of `super` is the first one from the superclass of its class outward, bound to that instance. -/
def Event.SeesHome : Event → Prop
  | .eval home (.this _ _) before result after =>
    ∃ o, home.receiver = some o ∧ result = .ok (.instance o) ∧ after = before
  | .eval home (.super _ _ method) before result after =>
    ∃ o parent, home.receiver = some o ∧ home.parent = some parent ∧
      ((∃ f g, FirstMethod before.machine.heap method.lexeme parent f ∧
          result = .ok (.function g) ∧ Binds before after f o g) ∨
        (¬ ∃ f, FirstMethod before.machine.heap method.lexeme parent f) ∧
          result = .error (.error ⟨.undefinedProperty method.lexeme, method.line⟩) ∧
          after = before)
  | _ => True

/-- What leaves a piece of code: no break a loop or a call, no value but `nil` an initializer, and
nothing pending a statement at the top. -/
def Event.KeepsFlow : Event → Prop
  | .exec _ (.while _ _) _ result _ => result ≠ .ok .break
  | .body f _ result _ => result ≠ .ok .break ∧
      (f.closure.isInitializer = true → ∀ flow, result = .ok flow →
        flow = .normal ∨ flow = .return .nil)
  | .top _ _ result _ => ∀ flow, result = .ok flow → flow = .normal
  | _ => True

end Lox.Traced

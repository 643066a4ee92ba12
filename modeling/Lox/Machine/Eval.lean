import Lox.Machine

/-!
# Running a tree

Expressions give values and statements give flows; both run in the machine. Every call takes one
unit of fuel from its own parts, which bounds the depth of the run and the rounds of each loop, so
running is a function; a run that ends does so for every larger fuel in the same way.
-/

namespace Lox

open Exec

def unaryResult (operator : Kind) (right : Value) : Except RuntimeError.Cause Value :=
  match operator, right with
  | .punct .minus, .number x => .ok (.number (-x))
  | .punct .minus, _ => .error .operandNotNumber
  | .punct .bang, v => .ok (.bool !v.isTruthy)
  | _, _ => .error .invalidUnary

def arithmetic (f : Float → Float → Float) : Value → Value → Except RuntimeError.Cause Value
  | .number x, .number y => .ok (.number (f x y))
  | _, _ => .error .operandsNotNumbers

def comparison (f : Float → Float → Bool) : Value → Value → Except RuntimeError.Cause Value
  | .number x, .number y => .ok (.bool (f x y))
  | _, _ => .error .operandsNotNumbers

def sum : Value → Value → Except RuntimeError.Cause Value
  | .number x, .number y => .ok (.number (x + y))
  | .string s, .string t => .ok (.string (s ++ t))
  | _, _ => .error .operandsNotAddable

def binaryResult (operator : Kind) (left right : Value) : Except RuntimeError.Cause Value :=
  match operator with
  | .punct .equalEqual => .ok (.bool (left.equals right))
  | .punct .bangEqual => .ok (.bool !(left.equals right))
  | .punct .plus => sum left right
  | .punct .minus => arithmetic (· - ·) left right
  | .punct .star => arithmetic (· * ·) left right
  | .punct .slash => arithmetic (· / ·) left right
  | .punct .greater => comparison (fun x y => y < x) left right
  | .punct .greaterEqual => comparison (fun x y => y ≤ x) left right
  | .punct .less => comparison (fun x y => x < y) left right
  | .punct .lessEqual => comparison (fun x y => x ≤ y) left right
  | _ => .error .invalidBinary

/-- A result of an operator, or an error on its line. -/
def Exec.ofResult (operator : Token) : Except RuntimeError.Cause Value → Exec Value
  | .ok v => return v
  | .error cause => fail operator cause

/-- Whether the left operand of `and` or `or` is the result. -/
def shortCircuits (operator : Kind) (left : Value) : Bool :=
  if operator = .keyword .or then left.isTruthy else !left.isTruthy

/-- Statements in order, up to one that does not end normally. -/
def runAll (run : Stmt → Exec Flow) : List Stmt → Exec Flow
  | [] => return .normal
  | s :: ss => do
    match ← run s with
    | .normal => runAll run ss
    | flow => return flow

/-- Rounds of a loop, up to a condition that fails, a break or a return. -/
def repeatWhile (condition : Exec Value) (body : Exec Flow) : (fuel : Nat) → Exec Flow
  | 0 => throw .outOfFuel
  | n + 1 => do
    if (← condition).isTruthy then
      match ← body with
      | .normal => repeatWhile condition body n
      | .break => return .normal
      | .return v => return .return v
    else return .normal

/-- The class that a superclass names; anything else is blamed on the name. -/
def superclassOf (run : Expr → Exec Value) (name : Token) : Option Expr → Exec (Option ClassId)
  | none => return none
  | some e => do
    match ← run e with
    | .class c => return some c
    | _ =>
      let blamed := match e with
        | .variable _ parent => parent
        | _ => name
      fail blamed .superclassNotClass

/-- The frame around the methods of a class: one that binds `super` when there is a superclass. -/
def methodFrame (here : FrameId) : Option ClassId → Exec FrameId
  | none => return here
  | some c => newFrame here (Bindings.empty.insert "super" (.class c))

/-- The parameters of a function with the arguments of a call. -/
def parameterBindings (params : List Token) (arguments : List Value) : Bindings Value :=
  (params.zip arguments).foldl (fun b (p, v) => b.insert p.lexeme v) .empty

mutual

def Expr.eval : (fuel : Nat) → Expr → Exec Value
  | 0, _ => throw .outOfFuel
  | n + 1, e =>
    match e with
    | .literal value => return .ofLiteral value
    | .grouping inner => inner.eval n
    | .unary operator right => do
      let right ← right.eval n
      ofResult operator (unaryResult operator.kind right)
    | .binary left operator right => do
      let left ← left.eval n
      let right ← right.eval n
      ofResult operator (binaryResult operator.kind left right)
    | .logical left operator right => do
      let left ← left.eval n
      if shortCircuits operator.kind left then return left else right.eval n
    | .variable id name => read id name
    | .assign id name value => do
      let v ← value.eval n
      assign id name v
      return v
    | .call callee paren arguments => do
      let f ← callee.eval n
      let arguments ← arguments.mapM (Expr.eval n)
      match ← inspect (·.arity? f) with
      | none => fail paren .notCallable
      | some arity =>
        if arguments.length = arity then f.call n paren arguments
        else fail paren (.wrongArity arity arguments.length)
    | .get object name => do
      match ← object.eval n with
      | .instance o => getProperty o name
      | _ => fail name .readsNoInstance
    | .set object name value => do
      match ← object.eval n with
      | .instance o =>
        let v ← value.eval n
        setProperty o name v
        return v
      | _ => fail name .writesNoInstance
    | .this id keyword => read id keyword
    | .super id keyword method => getSuper id keyword method

/-- Calls a value with as many arguments as it takes. -/
def Value.call : (fuel : Nat) → Value → (paren : Token) → List Value → Exec Value
  | 0, _, _, _ => throw .outOfFuel
  | n + 1, callee, paren, arguments => do
    match callee with
    | .native id => callNative paren (← inspect (·.native id)) arguments
    | .function f => (← inspect (·.closure f)).call n arguments
    | .class c =>
      let o ← modifyHeap fun h => h.newInstance c
      match ← inspect (·.method? c initializerName) with
      | some f =>
        let initializer ← bindThis f o
        let _ ← initializer.call n arguments
        return .instance o
      | none => return .instance o
    | _ => fail paren .notCallable

/-- Runs the body in a new frame inside the closure's; an initializer gives back its instance. -/
def Closure.call : (fuel : Nat) → Closure → List Value → Exec Value
  | 0, _, _ => throw .outOfFuel
  | n + 1, f, arguments => do
    let e ← newFrame f.frame (parameterBindings f.decl.params arguments)
    let flow ← withFrame e (runAll (Stmt.exec n) f.decl.body)
    if f.isInitializer then ask fun m => m.heap.getAt f.frame 0 "this"
    else return flow.result

def Stmt.exec : (fuel : Nat) → Stmt → Exec Flow
  | 0, _ => throw .outOfFuel
  | n + 1, s =>
    match s with
    | .expression value => do
      let _ ← value.eval n
      return .normal
    | .print value => do
      let v ← value.eval n
      print (← inspect (·.display v))
      return .normal
    | .var name none => do
      define name.lexeme .nil
      return .normal
    | .var name (some value) => do
      define name.lexeme (← value.eval n)
      return .normal
    | .block body => do
      let e ← newFrame (← currentFrame) .empty
      withFrame e (runAll (Stmt.exec n) body)
    | .if condition thenBranch elseBranch => do
      if (← condition.eval n).isTruthy then thenBranch.exec n
      else match elseBranch with
        | some elseBranch => elseBranch.exec n
        | none => return .normal
    | .while condition body => repeatWhile (condition.eval n) (body.exec n) n
    | .break _ => return .break
    | .function decl => do
      let f ← newClosure ⟨decl, ← currentFrame, false⟩
      define decl.name.lexeme f
      return .normal
    | .return _ none => return .return .nil
    | .return _ (some value) => return .return (← value.eval n)
    | .class name superclass methods => do
      let parent ← superclassOf (Expr.eval n) name superclass
      define name.lexeme .nil
      let here ← currentFrame
      let around ← methodFrame here parent
      let c ← newClass name.lexeme parent methods around
      assignFrom here name c
      return .normal

end

/-! ### Without fuel -/

theorem Expr.eval_zero (e : Expr) : e.eval 0 = throw .outOfFuel := by
  simp only [Expr.eval]

theorem Value.call_zero (callee : Value) (paren : Token) (arguments : List Value) :
    callee.call 0 paren arguments = throw .outOfFuel := by
  simp only [Value.call]

theorem Closure.call_zero (f : Closure) (arguments : List Value) :
    f.call 0 arguments = throw .outOfFuel := by
  simp only [Closure.call]

theorem Stmt.exec_zero (s : Stmt) : s.exec 0 = throw .outOfFuel := by
  simp only [Stmt.exec]

/-! ### Programs -/

/-- The statements of a program in order; how one ends is of no account at the top level. -/
def interpret (fuel : Nat) (program : List Stmt) : Exec Unit :=
  program.forM fun s => do
    let _ ← s.exec fuel

end Lox

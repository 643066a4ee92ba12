import Lox.Store.Heap
import Std.Data.HashMap

/-!
# The machine

The state a program runs in, the ways a run can stop, and the steps that touch the state: reading
and writing variables, making objects, printing. `withFrame` runs a step in another frame and comes
back to the old one however the step ends.
-/

namespace Lox

/-- What a runtime error complains about. -/
inductive RuntimeError.Cause
  | operandNotNumber
  | operandsNotNumbers
  | operandsNotAddable
  | invalidUnary
  | invalidBinary
  | undefinedVariable (name : String)
  | undefinedProperty (name : String)
  | readsNoInstance
  | writesNoInstance
  | notCallable
  | wrongArity (expected given : Nat)
  | superclassNotClass
  | superOutsideClass
  | superNotBound
  | native (message : String)
  deriving DecidableEq, Repr

def RuntimeError.Cause.message : RuntimeError.Cause → String
  | operandNotNumber => "Operand must be a number"
  | operandsNotNumbers => "Operands must be two numbers"
  | operandsNotAddable => "Operands must be two numbers or two strings"
  | invalidUnary => "Invalid unary operator"
  | invalidBinary => "Invalid binary operator"
  | undefinedVariable name => "Undefined variable '" ++ name ++ "'."
  | undefinedProperty name => "Undefined property " ++ name
  | readsNoInstance => "Only instances have properties."
  | writesNoInstance => "Only instances have fields."
  | notCallable => "Can only call functions and classes."
  | wrongArity expected given =>
    "Expected " ++ toString expected ++ " arguments but got " ++ toString given ++ "."
  | superclassNotClass => "Superclass must be a class."
  | superOutsideClass => "Can't use 'super' outside of a class."
  | superNotBound => "Invalid 'super' binding."
  | native message => message

structure RuntimeError where
  cause : RuntimeError.Cause
  line : Nat
  deriving DecidableEq, Repr

/-- Why a run ends before its program does. -/
inductive Stop
  | error (e : RuntimeError)
  | sinkFull
  | fault (f : Fault)
  | outOfFuel
  deriving DecidableEq, Repr

/-- How a statement ends: the next one follows, or a loop or a call is left. -/
inductive Flow
  | normal
  | «break»
  | «return» (value : Value)
  deriving DecidableEq, Repr

/-- What a call whose body ended so gives back. -/
def Flow.result : Flow → Value
  | .return value => value
  | _ => .nil

/-- The lines printed so far; with a limit, no more than that many are taken. -/
structure Sink where
  lines : Array String
  limit : Option Nat

def Sink.hasRoom (s : Sink) : Bool := s.limit.all (s.lines.size < ·)

def Sink.push (s : Sink) (line : String) : Sink := { s with lines := s.lines.push line }

/-- `clock k` is the time that the call of a native sees when `k` calls came before. -/
structure Machine where
  heap : Heap
  frame : FrameId
  distances : Std.HashMap NodeId Nat
  sink : Sink
  clock : Nat → Float
  readings : Nat

namespace Machine

/-- The frame of global variables. -/
def globals : FrameId := ⟨0⟩

def defineGlobal (m : Machine) (name : String) (v : Value) : Machine :=
  { m with heap := m.heap.define globals name v }

def defineNative (m : Machine) (name : String) (native : Native) : Machine :=
  let (id, heap) := m.heap.newNative native
  { m with heap := heap.define globals name (.native id) }

/-- A machine whose only global is the clock. -/
def start (clock : Nat → Float) (limit : Option Nat) : Machine :=
  let m : Machine :=
    { heap := (Heap.empty.newFrame none .empty).2
      frame := globals
      distances := ∅
      sink := ⟨#[], limit⟩
      clock
      readings := 0 }
  m.defineNative Native.clock.name Native.clock

/-- Records the distances of a resolved tree. -/
def noteAll (m : Machine) (distances : Array (NodeId × Nat)) : Machine :=
  { m with distances := distances.foldl (fun known (id, d) => known.insert id d) m.distances }

end Machine

abbrev Exec := EStateM Stop Machine

namespace Exec

def fail {α : Type} (blamed : Token) (cause : RuntimeError.Cause) : Exec α :=
  throw (.error ⟨cause, blamed.line⟩)

/-- A question about the state that can go wrong. -/
def ask {α : Type} (question : Machine → Except Fault α) : Exec α := fun m =>
  match question m with
  | .ok a => .ok a m
  | .error fault => .error (.fault fault) m

/-- A question about the store that always has an answer. -/
def inspect {α : Type} (question : Heap → α) : Exec α := fun m => .ok (question m.heap) m

def currentFrame : Exec FrameId := fun m => .ok m.frame m

def distance? (id : NodeId) : Exec (Option Nat) := fun m => .ok m.distances[id]? m

/-- Changes the store and passes a result on. -/
def modifyHeap {α : Type} (f : Heap → α × Heap) : Exec α := fun m =>
  let (a, heap) := f m.heap
  .ok a { m with heap }

def withFrame {α : Type} (e : FrameId) (act : Exec α) : Exec α := fun m =>
  let outer := m.frame
  match act { m with frame := e } with
  | .ok a m => .ok a { m with frame := outer }
  | .error stop m => .error stop { m with frame := outer }

theorem withFrame_eq_ok_iff {α : Type} {e : FrameId} {act : Exec α} {m m' : Machine} {a : α} :
    withFrame e act m = .ok a m' ↔
      ∃ inner, act { m with frame := e } = .ok a inner ∧ m' = { inner with frame := m.frame } := by
  simp only [withFrame]
  rcases act { m with frame := e } with ⟨b, inner⟩ | ⟨stop, inner⟩
  · constructor
    · rintro ⟨⟩
      exact ⟨inner, rfl, rfl⟩
    · rintro ⟨_, ⟨⟩, rfl⟩
      rfl
  · simp

theorem withFrame_eq_error_iff {α : Type} {e : FrameId} {act : Exec α} {m m' : Machine}
    {stop : Stop} :
    withFrame e act m = .error stop m' ↔
      ∃ inner, act { m with frame := e } = .error stop inner ∧
        m' = { inner with frame := m.frame } := by
  simp only [withFrame]
  rcases act { m with frame := e } with ⟨b, inner⟩ | ⟨stop', inner⟩
  · simp
  · constructor
    · rintro ⟨⟩
      exact ⟨inner, rfl, rfl⟩
    · rintro ⟨_, ⟨⟩, rfl⟩
      rfl

/-- Prints one line, or stops the run without a trace of it. -/
def print (line : String) : Exec Unit := fun m =>
  if m.sink.hasRoom then .ok () { m with sink := m.sink.push line } else .error .sinkFull m

/-! ### Variables -/

def define (name : String) (v : Value) : Exec Unit := fun m =>
  .ok () { m with heap := m.heap.define m.frame name v }

/-- A name looked up from a frame outward. -/
def getFrom (e : FrameId) (name : Token) : Exec Value := do
  match ← inspect (·.get? e name.lexeme) with
  | some v => return v
  | none => fail name (.undefinedVariable name.lexeme)

/-- A name overwritten where it is found from a frame outward. -/
def assignFrom (e : FrameId) (name : Token) (v : Value) : Exec Unit := fun m =>
  match m.heap.holder? e name.lexeme with
  | some p => .ok () { m with heap := m.heap.define p name.lexeme v }
  | none => .error (.error ⟨.undefinedVariable name.lexeme, name.line⟩) m

theorem assignFrom_eq (e : FrameId) (name : Token) (v : Value) (m : Machine) :
    assignFrom e name v m =
      match m.heap.assign? e name.lexeme v with
      | some heap => .ok () { m with heap }
      | none => .error (.error ⟨.undefinedVariable name.lexeme, name.line⟩) m := by
  unfold assignFrom Heap.assign?
  cases m.heap.holder? e name.lexeme <;> rfl

def getAt (distance : Nat) (name : String) : Exec Value :=
  ask fun m => m.heap.getAt m.frame distance name

def assignAt (distance : Nat) (name : String) (v : Value) : Exec Unit := fun m =>
  match m.heap.ancestor m.frame distance with
  | .ok p => .ok () { m with heap := m.heap.define p name v }
  | .error fault => .error (.fault fault) m

theorem assignAt_eq (distance : Nat) (name : String) (v : Value) (m : Machine) :
    assignAt distance name v m =
      match m.heap.assignAt m.frame distance name v with
      | .ok heap => .ok () { m with heap }
      | .error fault => .error (.fault fault) m := by
  unfold assignAt Heap.assignAt
  cases m.heap.ancestor m.frame distance <;> rfl

/-- An occurrence with a distance reads the frame that far out, one without reads a global. -/
def read (id : NodeId) (name : Token) : Exec Value := do
  match ← distance? id with
  | some d => getAt d name.lexeme
  | none => getFrom Machine.globals name

def assign (id : NodeId) (name : Token) (v : Value) : Exec Unit := do
  match ← distance? id with
  | some d => assignAt d name.lexeme v
  | none => assignFrom Machine.globals name v

/-! ### Objects -/

def newFrame (enclosing : FrameId) (bindings : Bindings Value) : Exec FrameId :=
  modifyHeap fun h => h.newFrame (some enclosing) bindings

/-- A closure over the current frame, or over another. -/
def newClosure (f : Closure) : Exec Value :=
  modifyHeap fun h => let (id, h) := h.newClosure f; (.function id, h)

/-- A closure whose frame binds `this`, around which stands the frame of the given one. -/
def bindThis (f : Closure) (o : InstanceId) : Exec Closure := do
  let e ← newFrame f.frame (Bindings.empty.insert "this" (.instance o))
  return { f with frame := e }

/-- Fields hide methods; a method is bound to the instance it is read from. -/
def getProperty (o : InstanceId) (name : Token) : Exec Value := do
  match ← inspect (·.field? o name.lexeme) with
  | some v => return v
  | none =>
  match ← inspect fun h => h.method? (h.instanceAt o).classId name.lexeme with
  | some f => newClosure (← bindThis f o)
  | none => fail name (.undefinedProperty name.lexeme)

def setProperty (o : InstanceId) (name : Token) (v : Value) : Exec Unit :=
  modifyHeap fun h => ((), h.setField o name.lexeme v)

/-- A method found from the class bound to `super` upward, bound to the instance bound to `this`
one frame further in. -/
def getSuper (id : NodeId) (keyword method : Token) : Exec Value := do
  match ← distance? id with
  | none => fail keyword .superOutsideClass
  | some d =>
    let parent ← getAt d "super"
    match d with
    | 0 => throw (.fault .superAtZero)
    | inner + 1 =>
    let receiver ← getAt inner "this"
    match parent, receiver with
    | .class c, .instance o =>
      match ← inspect (·.method? c method.lexeme) with
      | some f => newClosure (← bindThis f o)
      | none => fail method (.undefinedProperty method.lexeme)
    | _, _ => fail keyword .superNotBound

/-- The next reading of the clock. -/
def now : Exec Float := fun m => .ok (m.clock m.readings) { m with readings := m.readings + 1 }

def callNative (paren : Token) (native : Native) (arguments : List Value) : Exec Value := do
  let now ← now
  match ← inspect fun h => native.run ⟨arguments, h.display, now⟩ with
  | .ok answer => return answer.value arguments
  | .error message => fail paren (.native message)

/-- Makes a class with its methods closed over `e`; of two methods with one name the later stays. -/
def newClass (name : String) (superclass : Option ClassId) (methods : List FunDecl)
    (e : FrameId) : Exec Value :=
  modifyHeap fun h =>
    let (table, h) := methods.foldl (fun (table, h) decl =>
      let (id, h) := h.newClosure ⟨decl, e, decl.isInitializer⟩
      (table.insert decl.name.lexeme id, h)) (Bindings.empty, h)
    let (id, h) := h.newClass ⟨name, superclass, table⟩
    (.class id, h)

end Exec

end Lox

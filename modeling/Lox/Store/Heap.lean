import Lox.Store.Bindings
import Lox.Value

/-!
# The store

Everything that outlives an expression: frames of variables, closures, classes, instances and
natives, each kind in an array that only grows. A frame, once made, keeps its link to the frame
around it, and the link leads to an older frame, so every chain of links ends; the same holds of
classes and their superclasses. A number outside its array reads as an empty object.
-/

namespace Lox

/-- One scope at run time. -/
structure Frame where
  bindings : Bindings Value
  enclosing : Option FrameId

/-- A declaration and the frame in which it was executed. -/
structure Closure where
  decl : FunDecl
  frame : FrameId
  isInitializer : Bool

structure Class where
  name : String
  superclass : Option ClassId
  methods : Bindings ClosureId

structure Instance where
  classId : ClassId
  fields : Bindings Value

/-- What a native sees of a call. -/
structure Native.Call where
  arguments : List Value
  describe : Value → String
  now : Float

/-- A native answers with a plain value or with one of its arguments. -/
inductive Native.Answer
  | plain (value : Literal)
  | argument (index : Nat)

/-- A function of the host, with a fixed number of parameters; it may refuse with a message. -/
structure Native where
  name : String
  arity : Nat
  run : Native.Call → Except String Native.Answer

def Native.Answer.value (arguments : List Value) : Native.Answer → Value
  | .plain value => .ofLiteral value
  | .argument index => arguments.getD index .nil

/-- The time of the call. -/
def Native.clock : Native := ⟨"clock", 0, fun call => .ok (.plain (.number call.now))⟩

structure Heap where
  frames : Array Frame
  closures : Array Closure
  classes : Array Class
  instances : Array Instance
  natives : Array Native

/-- A jump to a frame or name that is not there. -/
inductive Fault
  | noEnclosing (distance : Nat)
  | missing (name : String) (distance : Nat)
  | superAtZero
  deriving DecidableEq, Repr

def Fault.message : Fault → String
  | .noEnclosing distance => "No enclosing environment at distance " ++ toString distance
  | .missing name distance =>
    "Resolved variable '" ++ name ++ "' missing at distance " ++ toString distance
  | .superAtZero => "No instance inside 'super' at distance 0"

namespace Heap

def empty : Heap := ⟨#[], #[], #[], #[], #[]⟩

def frame (h : Heap) (e : FrameId) : Frame := h.frames.getD e.index ⟨.empty, none⟩

def closure (h : Heap) (f : ClosureId) : Closure :=
  h.closures.getD f.index ⟨⟨⟨.identifier, "", 0⟩, [], []⟩, ⟨0⟩, false⟩

def classAt (h : Heap) (c : ClassId) : Class := h.classes.getD c.index ⟨"", none, .empty⟩

def instanceAt (h : Heap) (o : InstanceId) : Instance := h.instances.getD o.index ⟨⟨0⟩, .empty⟩

def native (h : Heap) (n : NativeId) : Native :=
  h.natives.getD n.index ⟨"", 0, fun _ => .ok (.plain .nil)⟩

/-! ### New objects -/

def newFrame (h : Heap) (enclosing : Option FrameId) (bindings : Bindings Value) :
    FrameId × Heap :=
  (⟨h.frames.size⟩, { h with frames := h.frames.push ⟨bindings, enclosing⟩ })

def newClosure (h : Heap) (f : Closure) : ClosureId × Heap :=
  (⟨h.closures.size⟩, { h with closures := h.closures.push f })

def newClass (h : Heap) (c : Class) : ClassId × Heap :=
  (⟨h.classes.size⟩, { h with classes := h.classes.push c })

def newInstance (h : Heap) (classId : ClassId) : InstanceId × Heap :=
  (⟨h.instances.size⟩, { h with instances := h.instances.push ⟨classId, .empty⟩ })

def newNative (h : Heap) (n : Native) : NativeId × Heap :=
  (⟨h.natives.size⟩, { h with natives := h.natives.push n })

/-! ### Variables -/

/-- The frame around a frame; a link that does not lead to an older frame counts as none. -/
def enclosing? (h : Heap) (e : FrameId) : Option FrameId :=
  (h.frame e).enclosing.filter (·.index < e.index)

theorem enclosing?_lt {h : Heap} {e p : FrameId} (hp : h.enclosing? e = some p) :
    p.index < e.index := by
  simpa using (Option.filter_eq_some_iff.1 hp).2

/-- What a name is bound to in one frame. -/
def local? (h : Heap) (e : FrameId) (name : String) : Option Value :=
  (h.frame e).bindings.find? name

/-- Binds a name in one frame, whether or not it was bound there. -/
def define (h : Heap) (e : FrameId) (name : String) (v : Value) : Heap :=
  { h with frames := h.frames.modify e.index fun f => { f with bindings := f.bindings.insert name v } }

theorem frame_define (h : Heap) (e p : FrameId) (name : String) (v : Value) :
    (h.define e name v).frame p =
      if e = p ∧ p.index < h.frames.size then
        { h.frame p with bindings := (h.frame p).bindings.insert name v }
      else h.frame p := by
  by_cases hp : p.index < h.frames.size
  · by_cases he : e = p
    · simp [frame, define, Array.getElem_modify, hp, he]
    · have : e.index ≠ p.index := fun h => he (by cases e; cases p; simp_all)
      simp [frame, define, Array.getElem_modify, hp, he, this]
  · simp [frame, define, hp]

/-- Defining a name is read back in its own frame and seen nowhere else. -/
theorem local?_define (h : Heap) {e : FrameId} (he : e.index < h.frames.size) (p : FrameId)
    (name other : String) (v : Value) :
    (h.define e name v).local? p other =
      if e = p ∧ name = other then some v else h.local? p other := by
  unfold local?
  rw [frame_define]
  by_cases hp : e = p
  · subst hp
    simp [he, Bindings.find?_insert]
  · simp [hp]

/-- Of two values given to a name one after the other the later stays. -/
theorem define_define (h : Heap) (e : FrameId) (name : String) (v w : Value) :
    (h.define e name v).define e name w = h.define e name w := by
  simp only [define, mk.injEq, and_true]
  refine Array.ext_getElem? fun i => ?_
  simp only [Array.getElem?_modify]
  split
  · simp [Function.comp_def, Bindings.insert_insert]
  · rfl

theorem enclosing?_define (h : Heap) (e p : FrameId) (name : String) (v : Value) :
    (h.define e name v).enclosing? p = h.enclosing? p := by
  unfold enclosing?
  rw [frame_define]
  split <;> rfl

theorem frame_newFrame (h : Heap) (enclosing : Option FrameId) (b : Bindings Value) :
    (h.newFrame enclosing b).2.frame (h.newFrame enclosing b).1 = ⟨b, enclosing⟩ := by
  simp [frame, newFrame]

/-- A new frame leaves the old ones as they are. -/
theorem frame_newFrame_of_lt (h : Heap) (enclosing : Option FrameId) (b : Bindings Value)
    {p : FrameId} (hp : p.index < h.frames.size) :
    (h.newFrame enclosing b).2.frame p = h.frame p := by
  have : p.index < h.frames.size + 1 := by omega
  simp [frame, newFrame, hp, this, Array.getElem_push]

theorem enclosing?_newFrame_of_lt (h : Heap) (enclosing : Option FrameId) (b : Bindings Value)
    {p : FrameId} (hp : p.index < h.frames.size) :
    (h.newFrame enclosing b).2.enclosing? p = h.enclosing? p := by
  unfold enclosing?
  rw [frame_newFrame_of_lt h enclosing b hp]

theorem enclosing?_newFrame (h : Heap) {outer : FrameId} (b : Bindings Value)
    (ho : outer.index < h.frames.size) :
    (h.newFrame (some outer) b).2.enclosing? (h.newFrame (some outer) b).1 = some outer := by
  unfold enclosing?
  rw [frame_newFrame]
  simp [newFrame, ho]

theorem local?_newFrame_of_lt (h : Heap) (enclosing : Option FrameId) (b : Bindings Value)
    {p : FrameId} (hp : p.index < h.frames.size) (name : String) :
    (h.newFrame enclosing b).2.local? p name = h.local? p name := by
  unfold local?
  rw [frame_newFrame_of_lt h enclosing b hp]

theorem local?_newFrame (h : Heap) (enclosing : Option FrameId) (b : Bindings Value)
    (name : String) :
    (h.newFrame enclosing b).2.local? (h.newFrame enclosing b).1 name = b.find? name := by
  unfold local?
  rw [frame_newFrame]

theorem local?_of_le (h : Heap) {e : FrameId} (he : h.frames.size ≤ e.index) (name : String) :
    h.local? e name = none := by
  have : ¬ e.index < h.frames.size := by omega
  simp [local?, frame, this, Bindings.find?_empty]

theorem lt_of_local? {h : Heap} {e : FrameId} {name : String} (hx : (h.local? e name).isSome) :
    e.index < h.frames.size := by
  rcases Nat.lt_or_ge e.index h.frames.size with he | he
  · exact he
  · rw [local?_of_le h he] at hx
    cases hx

theorem lt_of_enclosing? {h : Heap} {e p : FrameId} (hp : h.enclosing? e = some p) :
    e.index < h.frames.size := by
  rcases Nat.lt_or_ge e.index h.frames.size with he | he
  · exact he
  · simp [enclosing?, frame, Nat.not_lt.2 he] at hp

@[simp] theorem size_frames_define (h : Heap) (e : FrameId) (name : String) (v : Value) :
    (h.define e name v).frames.size = h.frames.size := by
  simp [define]

theorem closure_newClosure (h : Heap) (f : Closure) :
    (h.newClosure f).2.closure (h.newClosure f).1 = f := by
  simp [closure, newClosure]

/-- The nearest frame outward that binds a name. -/
def holder? (h : Heap) (e : FrameId) (name : String) : Option FrameId :=
  if (h.local? e name).isSome then some e
  else match hp : h.enclosing? e with
    | none => none
    | some p =>
      have := enclosing?_lt hp
      h.holder? p name
termination_by e.index

/-- A variable looked up by name. -/
def get? (h : Heap) (e : FrameId) (name : String) : Option Value :=
  (h.holder? e name).bind fun p => h.local? p name

theorem get?_globals (h : Heap) (name : String) : h.get? ⟨0⟩ name = h.local? ⟨0⟩ name := by
  have : h.enclosing? ⟨0⟩ = none := by simp [enclosing?]
  unfold get?
  rw [holder?]
  split
  · rfl
  · next hn =>
    split
    · simpa using (Option.not_isSome_iff_eq_none.1 hn).symm
    · simp_all

theorem holder?_self {h : Heap} {e : FrameId} {name : String} (hb : (h.local? e name).isSome) :
    h.holder? e name = some e := by
  rw [holder?, if_pos hb]

theorem holder?_globals (h : Heap) (name : String) :
    h.holder? ⟨0⟩ name = if (h.local? ⟨0⟩ name).isSome then some ⟨0⟩ else none := by
  have : h.enclosing? ⟨0⟩ = none := by simp [enclosing?]
  rw [holder?]
  split
  · rfl
  · split <;> simp_all

/-- Overwrites the variable that `get?` reads; there is nothing to overwrite when no frame on the
chain binds the name. -/
def assign? (h : Heap) (e : FrameId) (name : String) (v : Value) : Option Heap :=
  (h.holder? e name).map fun p => h.define p name v

/-- The frame a number of links outward. -/
def ancestor? (h : Heap) : (e : FrameId) → (distance : Nat) → Option FrameId
  | e, 0 => some e
  | e, d + 1 => (h.enclosing? e).bind fun p => h.ancestor? p d

def ancestor (h : Heap) (e : FrameId) (distance : Nat) : Except Fault FrameId :=
  match h.ancestor? e distance with
  | some p => .ok p
  | none => .error (.noEnclosing distance)

/-- A variable looked up in the frame at a known distance. -/
def getAt (h : Heap) (e : FrameId) (distance : Nat) (name : String) : Except Fault Value :=
  match h.ancestor e distance with
  | .error fault => .error fault
  | .ok p =>
    match h.local? p name with
    | some v => .ok v
    | none => .error (.missing name distance)

def assignAt (h : Heap) (e : FrameId) (distance : Nat) (name : String) (v : Value) :
    Except Fault Heap :=
  (h.ancestor e distance).map fun p => h.define p name v

/-! ### Classes and instances -/

/-- The class above a class; a link that does not lead to an older class counts as none. -/
def superclass? (h : Heap) (c : ClassId) : Option ClassId :=
  (h.classAt c).superclass.filter (·.index < c.index)

theorem superclass?_lt {h : Heap} {c s : ClassId} (hs : h.superclass? c = some s) :
    s.index < c.index := by
  simpa using (Option.filter_eq_some_iff.1 hs).2

/-- A class's own method, or else the one its superclass finds. -/
def findMethod? (h : Heap) (c : ClassId) (name : String) : Option ClosureId :=
  match (h.classAt c).methods.find? name with
  | some f => some f
  | none =>
    match hs : h.superclass? c with
    | none => none
    | some s =>
      have := superclass?_lt hs
      h.findMethod? s name
termination_by c.index

theorem findMethod?_eq (h : Heap) (c : ClassId) (name : String) :
    h.findMethod? c name = match (h.classAt c).methods.find? name with
      | some f => some f
      | none => (h.superclass? c).bind fun s => h.findMethod? s name := by
  rw [findMethod?]
  cases (h.classAt c).methods.find? name with
  | some f => rfl
  | none =>
    dsimp only
    split <;> simp_all

/-- Methods are found in the classes alone. -/
theorem findMethod?_congr {h h' : Heap} (hc : h'.classes = h.classes) (c : ClassId)
    (name : String) : h'.findMethod? c name = h.findMethod? c name := by
  have hat : ∀ c, h'.classAt c = h.classAt c := fun c => by simp [classAt, hc]
  fun_induction h.findMethod? c name with
  | case1 c f hf => rw [findMethod?_eq, hat, hf]
  | case2 c hf hs =>
    rw [findMethod?_eq, hat, hf]
    have : h'.superclass? c = none := by simpa [superclass?, hat] using hs
    simp [this]
  | case3 c hf s hs _ ih =>
    rw [findMethod?_eq, hat, hf, ← ih]
    have : h'.superclass? c = some s := by simpa [superclass?, hat] using hs
    simp [this]

def method? (h : Heap) (c : ClassId) (name : String) : Option Closure :=
  (h.findMethod? c name).map h.closure

def field? (h : Heap) (o : InstanceId) (name : String) : Option Value :=
  (h.instanceAt o).fields.find? name

def setField (h : Heap) (o : InstanceId) (name : String) (v : Value) : Heap :=
  { h with
    instances := h.instances.modify o.index fun i => { i with fields := i.fields.insert name v } }

/-- A class takes the arguments of its initializer. -/
def classArity (h : Heap) (c : ClassId) : Nat :=
  match h.method? c initializerName with
  | some f => f.decl.arity
  | none => 0

/-- The number of arguments a value takes, if it can be called. -/
def arity? (h : Heap) : Value → Option Nat
  | .native n => some (h.native n).arity
  | .function f => some (h.closure f).decl.arity
  | .class c => some (h.classArity c)
  | _ => none

/-! ### Texts -/

/-- What `print` writes. -/
def display (h : Heap) : Value → String
  | .nil => "nil"
  | .bool b => toString b
  | .number x => Value.numberText x
  | .string s => s
  | .native _ => "<native fn>"
  | .function f => "<fn " ++ (h.closure f).decl.name.lexeme ++ ">"
  | .class c => "<class " ++ (h.classAt c).name ++ ">"
  | .instance o => "<instanceof " ++ (h.classAt (h.instanceAt o).classId).name ++ ">"

end Heap

end Lox
